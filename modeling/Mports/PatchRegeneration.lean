import Mports.Distinfo
import Mports.PatchComments

set_option autoImplicit false

/-!
A whole run of smart_makepatch.sh: the old patches are mapped, staged against the new ones,
compared with them, moved away and replaced.
-/
namespace Mports.PatchRegeneration
open ShellText Distinfo PatchNames PatchComments

abbrev Files := List (Text × Text)

/-- `>> name`. -/
def addTo (name text : Text) : Files → Files
  | [] => [(name, text)]
  | (n, t) :: files => if n = name then (n, t ++ text) :: files else (n, t) :: addTo name text files

/-- `PATCHDIR` and `SAVEDIR`. -/
structure Port where
  patches : Patches
  saved : Patches

def textOf (patches : Patches) (name : Text) : Text := (patches name).getD []

/-- `/^--- .+ UTC$/d`. -/
def isDated (line : Line) : Bool :=
  "--- ".toList.isPrefixOf line && " UTC".toList.isSuffixOf line && "---  UTC".toList.length < line.length

/-- `s/^(@@ [^@]* @@).*/\1/`. -/
def untitled (line : Line) : Line :=
  let range := (line.drop 3).takeWhile (· ≠ '@')
  if "@@ ".toList.isPrefixOf line && range.getLast? = some ' ' && "@@".toList.isPrefixOf (line.drop (3 + range.length)) then
    line.take (3 + range.length + 2)
  else line

def withoutMetadata (text : Text) : List Line := ((linesOf text).filter (!isDated ·)).map untitled

section Script
variable (sh : Shell) (awk : Awk) (t : Tree)

/-- `patchdir_files_list`, of the names that `find` prints. -/
def oldPatchList (names : List Text) : List Word :=
  (names.filter fun name => !".orig".toList.isSuffixOf name).flatMap (sh.words .port)

/-- The second fields of the lines that `grep "^+++ "` finds. -/
def targets (text : Text) : List Word := ((linesOf text).filter isTarget).flatMap fun line => sh.words .port (field 2 line)

def stdTarget (target : Word) : Text := stdPatchFilename sh .port ((sh.words .port target).headD [])

def separators : List Text := ["__".toList, "-".toList, "+".toList]

/-- `sed -e "s|/|${lps}|g"`. -/
def separated (lps name : Text) : Text := name.flatMap fun c => if c = '/' then lps else [c]

def validName (args : List Word) : Text :=
  let currentPatchName := args.getD 0 []
  let firstTarget := without "./".toList (sh.echo (sh.words .port (args.getD 1 [])))
  let testres lps := "patch-".toList ++ separated lps (sh.echo (sh.words .port firstTarget))
  let result := if ∃ lps ∈ separators, testres lps = currentPatchName then currentPatchName else args.getD 2 []
  sh.echo (sh.words .port result)

/-- A name that conforms stays for a single patch; more than one patch keeps the name of its file. -/
def futureName (patch : Word) (futureSoFar : Text) : List Word → Text
  | [] => futureSoFar
  | target :: rest =>
    if futureSoFar ≠ [] then patch
    else futureName patch (validName sh (sh.words .port patch ++ sh.words .port target ++
      sh.words .port (stdTarget sh target))) rest

/-- The lines of `PATCHMAP`, each by its two fields. -/
def mapExistingPatches (patches : Patches) (old : List Word) : List (Text × Text) :=
  old.flatMap fun patch =>
    let target := targets sh (textOf patches patch)
    target.map fun name =>
      let line := futureName sh patch [] target ++ '\t' :: stdTarget sh name
      (field 1 line, field 2 line)

def extractComments (patches : Patches) (old : List Word) : Text → Option (List Line) :=
  old.foldl (fun comments patch => extractCommentFromPatch awk sh (linesOf (textOf patches patch)) comments) fun _ => none

def patchName (patchmap : List (Text × Text)) (patch : Word) : Text :=
  let name := sh.unescape patch
  ((patchmap.find? fun line => line.2 = name).map Prod.fst).getD name

/-- What is known of the old patches, and what was regenerated. -/
structure Sources where
  patchmap : List (Text × Text)
  comments : Text → Option (List Line)
  regenerated : Patches

def stagedText (src : Sources) (patch : Word) : Text :=
  ((src.comments patch).map ofLines).getD [] ++ (sh.words .regenerated patch).flatMap fun name => textOf src.regenerated name

def stageFile (src : Sources) (staged : Files) (file : Word) : Files :=
  let patch := without "./".toList file
  let name := patchName sh src.patchmap ((sh.words .port patch).headD [])
  if '/' ∈ name then staged else addTo name (stagedText sh src patch) staged

def stagePatches (src : Sources) (order : List Text) : Files :=
  (order.flatMap fun name => sh.words .port ("./".toList ++ name)).foldl (stageFile sh src) []

def comparePatch (patches : Patches) (s : Files × List Word) (patch : Word) : Files × List Word :=
  match s.1.lookup patch with
  | none => s
  | some text =>
    if withoutMetadata (textOf patches patch) = withoutMetadata text then (s.1.filter (·.1 ≠ patch), s.2)
    else (s.1, s.2 ++ [patch])

def compareCommonPatches (patches : Patches) (old : List Word) (staged : Files) : Files × List Word :=
  old.foldl (comparePatch patches) (staged, [])

def conserve (p : Port) (patch : Word) : Port :=
  match p.patches patch with
  | none => p
  | some text => ⟨Function.update p.patches patch none, Function.update p.saved patch (some text)⟩

/-- `SAVEDIR` is emptied first. -/
def conserveOldPatches (old : List Word) (p : Port) : Port :=
  (old.flatMap (sh.words .port)).foldl conserve ⟨p.patches, fun _ => none⟩

/-- Nothing is installed when `find` prints an empty file, or the directory itself. -/
def installRegeneratedPatches (staged : Files) (p : Port) : Port :=
  if staged = [] ∨ ∃ file ∈ staged, file.2 = [] then p
  else { p with patches := fun name => (staged.lookup name).or (p.patches name) }

def sourcesOf (names : List Text) (p : Port) : Sources where
  patchmap := mapExistingPatches sh p.patches (oldPatchList sh names)
  comments := extractComments sh awk p.patches (oldPatchList sh names)
  regenerated := regeneratePatches sh t

/-- The names are those that `find` prints of `PATCHDIR`, and in order those of the regenerated patches. -/
def run (names order : List Text) (p : Port) : Port :=
  let (staged, old) := compareCommonPatches p.patches (oldPatchList sh names) (stagePatches sh (sourcesOf sh awk t names p) order)
  installRegeneratedPatches staged (conserveOldPatches sh old p)

end Script

section Files
variable {files : Files}

theorem lookup_file (m text : Text) (files : Files) (n : Text) :
    ((m, text) :: files).lookup n = if n = m then some text else files.lookup n := by
  rw [List.lookup_cons]
  by_cases hn : n = m
  · simp [hn]
  · rw [if_neg hn, beq_false_of_ne hn]

theorem lookup_addTo (name text : Text) (files : Files) (n : Text) :
    (addTo name text files).lookup n = if n = name then some ((files.lookup name).getD [] ++ text) else files.lookup n := by
  induction files with
  | nil => rw [addTo, lookup_file]; rfl
  | cons file files ih =>
    obtain ⟨m, old⟩ := file
    rw [addTo]
    by_cases hm : m = name
    · rw [if_pos hm, hm, lookup_file, lookup_file, lookup_file]
      by_cases hn : n = name <;> simp [hn]
    · rw [if_neg hm, lookup_file, ih, lookup_file, lookup_file, if_neg (Ne.symm hm)]
      by_cases hn : n = m
      · simp [hn, hm]
      · simp [hn]

theorem mem_addTo {name text : Text} {file : Text × Text} (h : file ∈ addTo name text files) :
    file ∈ files ∨ text <:+ file.2 := by
  induction files with
  | nil =>
    rw [addTo, List.mem_singleton] at h
    exact .inr (h ▸ List.suffix_refl _)
  | cons other files ih =>
    obtain ⟨m, old⟩ := other
    rw [addTo] at h
    split_ifs at h
    · rcases List.mem_cons.1 h with rfl | h
      · exact .inr (List.suffix_append _ _)
      · exact .inl (List.mem_cons_of_mem _ h)
    · rcases List.mem_cons.1 h with rfl | h
      · exact .inl List.mem_cons_self
      · exact (ih h).imp_left (List.mem_cons_of_mem _)

theorem lookup_without (patch : Text) (files : Files) (n : Text) :
    (files.filter (·.1 ≠ patch)).lookup n = if n = patch then none else files.lookup n := by
  induction files with
  | nil => simp
  | cons file files ih =>
    obtain ⟨m, text⟩ := file
    rw [List.filter_cons, lookup_file]
    by_cases hm : m = patch
    · rw [if_neg (by simpa using hm), ih, hm]
      by_cases hn : n = patch <;> simp [hn]
    · rw [if_pos (by simpa using hm), lookup_file, ih]
      by_cases hn : n = m
      · simp [hn, hm]
      · simp [hn]

theorem mem_of_lookup {n text : Text} (h : files.lookup n = some text) : (n, text) ∈ files := by
  obtain ⟨before, after, hsplit, -⟩ := List.lookup_eq_some_iff.1 h
  rw [hsplit]
  simp

end Files

section Compare
variable (patches : Patches)

def same (staged : Files) (n : Text) : Bool :=
  (staged.lookup n).any fun text => withoutMetadata (textOf patches n) = withoutMetadata text

def changed (staged : Files) (n : Text) : Bool :=
  (staged.lookup n).any fun text => withoutMetadata (textOf patches n) ≠ withoutMetadata text

variable {patches} in
theorem same_unchanged {staged : Files} {n : Text} (h : same patches staged n) : changed patches staged n = false := by
  unfold same at h
  unfold changed
  cases hlookup : staged.lookup n with
  | none => rfl
  | some text =>
    rw [hlookup, Option.any_some, decide_eq_true_eq] at h
    rw [Option.any_some, decide_eq_false_iff_not, not_not]
    exact h

theorem comparePatch_spec (s : Files × List Word) (patch n : Word) :
    (comparePatch patches s patch).1.lookup n = (if n = patch ∧ same patches s.1 n then none else s.1.lookup n) ∧
      (n ∈ (comparePatch patches s patch).2 ↔ n ∈ s.2 ∨ (n = patch ∧ changed patches s.1 n)) ∧
      (comparePatch patches s patch).1 ⊆ s.1 := by
  unfold comparePatch
  cases hpatch : s.1.lookup patch with
  | none =>
    have hnone : ¬ (n = patch ∧ same patches s.1 n) ∧ ¬ (n = patch ∧ changed patches s.1 n) := by
      refine ⟨?_, ?_⟩
      · rintro ⟨rfl, h⟩
        simp [same, hpatch] at h
      · rintro ⟨rfl, h⟩
        simp [changed, hpatch] at h
    exact ⟨(if_neg hnone.1).symm, (or_iff_left hnone.2).symm, fun _ h => h⟩
  | some text =>
    dsimp only
    by_cases hsame : withoutMetadata (textOf patches patch) = withoutMetadata text
    · have hboth : (n = patch ∧ same patches s.1 n ↔ n = patch) ∧ ¬ (n = patch ∧ changed patches s.1 n) := by
        refine ⟨and_iff_left_of_imp ?_, ?_⟩
        · rintro rfl
          simp [same, hpatch, hsame]
        · rintro ⟨rfl, h⟩
          simp [changed, hpatch, hsame] at h
      rw [if_pos hsame]
      refine ⟨?_, (or_iff_left hboth.2).symm, fun file hfile => (List.mem_filter.1 hfile).1⟩
      rw [lookup_without, if_congr hboth.1 rfl rfl]
    · have hboth : ¬ (n = patch ∧ same patches s.1 n) ∧ (n = patch ∧ changed patches s.1 n ↔ n = patch) := by
        refine ⟨?_, and_iff_left_of_imp ?_⟩
        · rintro ⟨rfl, h⟩
          simp [same, hpatch, hsame] at h
        · rintro rfl
          simp [changed, hpatch, hsame]
      rw [if_neg hsame]
      refine ⟨(if_neg hboth.1).symm, ?_, fun _ h => h⟩
      rw [List.mem_append, List.mem_singleton, hboth.2]

theorem compare_rest (old : List Word) (s : Files × List Word) (n : Text) :
    (old.foldl (comparePatch patches) s).1.lookup n = (if n ∈ old ∧ same patches s.1 n then none else s.1.lookup n) ∧
      (n ∈ (old.foldl (comparePatch patches) s).2 ↔ n ∈ s.2 ∨ (n ∈ old ∧ changed patches s.1 n)) ∧
      (old.foldl (comparePatch patches) s).1 ⊆ s.1 := by
  induction old generalizing s with
  | nil => simp
  | cons patch old ih =>
    obtain ⟨hlookup, hmoved, hsub⟩ := ih (comparePatch patches s patch)
    obtain ⟨hstep, hstepMoved, hstepSub⟩ := comparePatch_spec patches s patch n
    rw [List.foldl_cons, hlookup, hmoved, hstepMoved]
    by_cases hgone : n = patch ∧ same patches s.1 n
    · have hchanged := same_unchanged hgone.2
      rw [if_pos hgone] at hstep
      refine ⟨?_, ?_, List.Subset.trans hsub hstepSub⟩
      · rw [hstep, ite_self, if_pos ⟨List.mem_cons.2 (.inl hgone.1), hgone.2⟩]
      · have hlater : changed patches (comparePatch patches s patch).1 n = false := by
          unfold changed
          rw [hstep]
          rfl
        rw [hlater, hchanged]
        simp
    · rw [if_neg hgone] at hstep
      have hlater : same patches (comparePatch patches s patch).1 n = same patches s.1 n ∧
          changed patches (comparePatch patches s patch).1 n = changed patches s.1 n := by
        unfold same changed
        rw [hstep]
        exact ⟨rfl, rfl⟩
      rw [hlater.1, hlater.2, hstep]
      refine ⟨if_congr ?_ rfl rfl, ?_, List.Subset.trans hsub hstepSub⟩
      · rw [List.mem_cons, or_and_right, or_iff_right hgone]
      · rw [List.mem_cons, or_and_right, or_assoc]

end Compare

section Conserve

theorem conserve_rest (old : List Word) (p : Port) (n : Text) :
    (old.foldl conserve p).patches n = (if n ∈ old then none else p.patches n) ∧
      (old.foldl conserve p).saved n = if n ∈ old then (p.patches n).or (p.saved n) else p.saved n := by
  induction old generalizing p with
  | nil => simp
  | cons patch old ih =>
    obtain ⟨hpatches, hsaved⟩ := ih (conserve p patch)
    rw [List.foldl_cons, hpatches, hsaved]
    unfold conserve
    cases hpatch : p.patches patch with
    | none =>
      by_cases hn : n = patch
      · subst hn
        simp [hpatch]
      · simp [hn]
    | some text =>
      by_cases hn : n = patch
      · subst hn
        by_cases hmem : n ∈ old <;> simp [hmem, hpatch]
      · simp [hn]

end Conserve

def Listed (n : Text) : Prop := "patch-".toList <+: n ∧ ¬ ".orig".toList <:+ n

/-- What `find` prints of `PATCHDIR`, where the shell leaves the names as they are. -/
structure Listing (sh : Shell) (patches : Patches) (names : List Text) : Prop where
  mem_names : ∀ n, n ∈ names ↔ "patch-".toList <+: n ∧ (patches n).isSome
  leaves : ∀ n ∈ names, sh.words .port n = [n]

section Run
variable {sh : Shell} {awk : Awk} {t : Tree} {names order : List Text} {p : Port}

theorem mem_oldPatchList (h : Listing sh p.patches names) (n : Text) :
    n ∈ oldPatchList sh names ↔ Listed n ∧ (p.patches n).isSome := by
  have hwords : oldPatchList sh names = names.filter fun name => !".orig".toList.isSuffixOf name := by
    rw [oldPatchList, List.flatMap_congr (g := fun name => [name]) fun name hname => h.leaves name (List.mem_filter.1 hname).1]
    exact List.flatMap_singleton' _
  rw [hwords, List.mem_filter, h.mem_names, Listed, Bool.not_eq_true', ← Bool.not_eq_true, List.isSuffixOf_iff_suffix]
  tauto

variable (sh awk t names order p) in
def stagedFiles : Files := stagePatches sh (sourcesOf sh awk t names p) order

def Moved (p : Port) (staged : Files) (n : Text) : Prop := (Listed n ∧ (p.patches n).isSome) ∧ changed p.patches staged n

theorem conserved (h : Listing sh p.patches names) (staged : Files) (n : Text) :
    let q := conserveOldPatches sh (compareCommonPatches p.patches (oldPatchList sh names) staged).2 p
    (Moved p staged n → q.patches n = none ∧ q.saved n = p.patches n) ∧
      (¬ Moved p staged n → q.patches n = p.patches n ∧ q.saved n = none) := by
  intro q
  have hmoved : ∀ m, m ∈ (compareCommonPatches p.patches (oldPatchList sh names) staged).2 ↔ Moved p staged m := by
    intro m
    rw [compareCommonPatches, (compare_rest p.patches _ _ m).2.1, mem_oldPatchList h]
    exact or_iff_right List.not_mem_nil
  have hwords : (compareCommonPatches p.patches (oldPatchList sh names) staged).2.flatMap (sh.words .port) =
      (compareCommonPatches p.patches (oldPatchList sh names) staged).2 := by
    rw [List.flatMap_congr (g := fun name => [name]) fun m hm => ?_]
    · exact List.flatMap_singleton' _
    · have hlisted := ((hmoved m).1 hm).1
      exact h.leaves m ((h.mem_names m).2 ⟨hlisted.1.1, hlisted.2⟩)
  obtain ⟨hpatches, hsaved⟩ := conserve_rest (compareCommonPatches p.patches (oldPatchList sh names) staged).2
    ⟨p.patches, fun _ => none⟩ n
  have hq : q = (compareCommonPatches p.patches (oldPatchList sh names) staged).2.foldl conserve ⟨p.patches, fun _ => none⟩ := by
    rw [← hwords]
    rfl
  rw [hq, hpatches, hsaved]
  refine ⟨fun hmem => ?_, fun hmem => ?_⟩
  · rw [if_pos ((hmoved n).2 hmem), if_pos ((hmoved n).2 hmem)]
    exact ⟨rfl, Option.or_none⟩
  · rw [if_neg (mt (hmoved n).1 hmem), if_neg (mt (hmoved n).1 hmem)]
    exact ⟨rfl, rfl⟩

variable (sh awk t names order p) in
def remaining : Files :=
  (compareCommonPatches p.patches (oldPatchList sh names) (stagedFiles sh awk t names order p)).1

theorem remaining_lookup (h : Listing sh p.patches names) (n : Text) :
    (((Listed n ∧ (p.patches n).isSome) ∧ same p.patches (stagedFiles sh awk t names order p) n) →
        (remaining sh awk t names order p).lookup n = none) ∧
      (¬ ((Listed n ∧ (p.patches n).isSome) ∧ same p.patches (stagedFiles sh awk t names order p) n) →
        (remaining sh awk t names order p).lookup n = (stagedFiles sh awk t names order p).lookup n) := by
  obtain ⟨hlookup, -⟩ := compare_rest p.patches (oldPatchList sh names) (stagedFiles sh awk t names order p, []) n
  rw [← mem_oldPatchList h, remaining, compareCommonPatches, hlookup]
  exact ⟨fun hsame => if_pos hsame, fun hsame => if_neg hsame⟩

theorem run_patches (n : Text) :
    (run sh awk t names order p).patches n =
        (if remaining sh awk t names order p = [] ∨ ∃ file ∈ remaining sh awk t names order p, file.2 = [] then none
          else (remaining sh awk t names order p).lookup n).or
          ((conserveOldPatches sh (compareCommonPatches p.patches (oldPatchList sh names)
            (stagedFiles sh awk t names order p)).2 p).patches n) ∧
      (run sh awk t names order p).saved n = (conserveOldPatches sh (compareCommonPatches p.patches (oldPatchList sh names)
        (stagedFiles sh awk t names order p)).2 p).saved n := by
  change (installRegeneratedPatches (remaining sh awk t names order p) _).patches n = _ ∧
    (installRegeneratedPatches (remaining sh awk t names order p) _).saved n = _
  unfold installRegeneratedPatches
  split_ifs
  · exact ⟨rfl, rfl⟩
  · exact ⟨rfl, rfl⟩

/-- An old patch is saved just where it is not in its place any more. -/
theorem saved_iff (h : Listing sh p.patches names) (n text : Text) :
    (run sh awk t names order p).saved n = some text ↔
      Listed n ∧ p.patches n = some text ∧ (run sh awk t names order p).patches n ≠ some text := by
  obtain ⟨hpatches, hsaved⟩ := @run_patches sh awk t names order p n
  obtain ⟨hmoved, hstays⟩ := conserved h (stagedFiles sh awk t names order p) n
  obtain ⟨hsame, hother⟩ := @remaining_lookup sh awk t names order p h n
  rw [hsaved, hpatches]
  by_cases hn : Moved p (stagedFiles sh awk t names order p) n
  · obtain ⟨hgone, hkept⟩ := hmoved hn
    rw [hgone, hkept, Option.or_none]
    refine ⟨fun htext => ⟨hn.1.1, htext, ?_⟩, fun htext => htext.2.1⟩
    split_ifs
    · exact nofun
    · -- what is installed differs
      intro hstaged
      have hnot : ¬ ((Listed n ∧ (p.patches n).isSome) ∧ same p.patches (stagedFiles sh awk t names order p) n) := by
        rintro ⟨-, hunchanged⟩
        rw [Moved, same_unchanged hunchanged] at hn
        exact Bool.false_ne_true hn.2
      have hchanged := hn.2
      rw [changed, ← hother hnot, hstaged, Option.any_some, textOf, htext] at hchanged
      simp at hchanged
  · obtain ⟨hplace, hnone⟩ := hstays hn
    rw [hplace, hnone]
    refine ⟨nofun, fun ⟨hlisted, htext, hnot⟩ => absurd ?_ hnot⟩
    have hrest : (remaining sh awk t names order p).lookup n = none := by
      by_cases hunchanged : same p.patches (stagedFiles sh awk t names order p) n
      · exact hsame ⟨⟨hlisted, by rw [htext]; rfl⟩, hunchanged⟩
      · rw [hother fun hall => hunchanged hall.2]
        cases hstaged : (stagedFiles sh awk t names order p).lookup n with
        | none => rfl
        | some staged =>
          refine absurd ⟨⟨hlisted, by rw [htext]; rfl⟩, ?_⟩ hn
          rw [same, hstaged, Option.any_some] at hunchanged
          rw [changed, hstaged, Option.any_some]
          simpa using hunchanged
    rw [hrest, ite_self, htext]
    rfl

end Run

def headers : List Line := ["--- a.orig".toList, "+++ a".toList, "@@ -1 +1 @@".toList]

/-- One source has changed against an old patch of it, which has a comment. -/
def revised : Tree where
  sources := ["a".toList]
  same _ _ := false
  diff _ _ := ofLines (headers ++ ["-x".toList, "+y".toList])
  nodup := by decide
  relative := List.forall_iff_forall_mem.1 (by decide)
  plain := List.forall_iff_forall_mem.1 ⟨by decide, List.forall_iff_forall_mem.1 (by decide)⟩

def outdatedPatch : Text := ofLines ("Why.".toList :: headers ++ ["-x".toList, "+z".toList])

def outdated : Port where
  patches name := if name = "patch-a".toList then some outdatedPatch else none
  saved _ := none

theorem outdated_listing : Listing plainShell outdated.patches ["patch-a".toList] where
  mem_names n := by
    rw [List.mem_singleton]
    constructor
    · rintro rfl
      exact ⟨by decide, by decide⟩
    · rintro ⟨-, hsome⟩
      by_contra hn
      change (if n = "patch-a".toList then some outdatedPatch else none).isSome at hsome
      rw [if_neg hn] at hsome
      cases hsome
  leaves := List.forall_iff_forall_mem.1 (by decide)

theorem outdated_saved : (run plainShell digitsAwk revised ["patch-a".toList] ["patch-a".toList] outdated).saved "patch-a".toList =
    some outdatedPatch :=
  (saved_iff outdated_listing _ _).2 ⟨by unfold Listed; decide, rfl, by decide +kernel⟩

end Mports.PatchRegeneration
