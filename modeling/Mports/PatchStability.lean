import Mports.PatchInstallation

set_option autoImplicit false

namespace Mports.PatchRegeneration
open ShellText Distinfo PatchNames PatchComments LineScans

section Conforming
variable (sh : Shell) (patches : Patches)

def targetOf (patch : Word) : Word := (targets sh (textOf patches patch)).headD []

/-- Each old patch has one target and is named after it; no two have the same. -/
structure Conforming (old : List Word) : Prop where
  single : ∀ patch ∈ old, ∃ line, (linesOf (textOf patches patch)).filter isTarget = [line] ∧ Target (field 2 line) ∧
    futureName sh patch [] [field 2 line] = patch
  apart : ∀ patch ∈ old, ∀ patch' ∈ old,
    stdTarget sh (targetOf sh patches patch) = stdTarget sh (targetOf sh patches patch') → patch = patch'

variable {sh patches} {old : List Word} (awk : Awk)

theorem targets_single {patch : Word} {line : Line} (hline : (linesOf (textOf patches patch)).filter isTarget = [line])
    (htarget : Target (field 2 line)) : targets sh (textOf patches patch) = [field 2 line] := by
  rw [targets, hline, List.flatMap_singleton, htarget.word.leaves .port]

theorem targetOf_single {patch : Word} {line : Line} (hline : (linesOf (textOf patches patch)).filter isTarget = [line])
    (htarget : Target (field 2 line)) : targetOf sh patches patch = field 2 line := by
  rw [targetOf, targets_single hline htarget]
  rfl

variable (h : Conforming sh patches old)
include h

theorem Conforming.target {patch : Word} (hpatch : patch ∈ old) : Target (targetOf sh patches patch) := by
  obtain ⟨line, hline, htarget, -⟩ := h.single patch hpatch
  rwa [targetOf_single hline htarget]

theorem Conforming.patchmap (hsimple : ∀ patch ∈ old, Simple patch) : mapExistingPatches sh patches old =
    old.map fun patch => (patch, stdTarget sh (targetOf sh patches patch)) := by
  rw [mapExistingPatches, List.map_eq_flatMap]
  refine List.flatMap_congr fun patch hpatch => ?_
  obtain ⟨line, hline, htarget, hname⟩ := h.single patch hpatch
  have hstd : Simple (stdTarget sh (field 2 line)) := by
    rw [stdTarget_eq htarget]
    exact htarget.path.patch
  obtain ⟨hfirst, hsecond⟩ := map_fields (hsimple patch hpatch) hstd
  rw [targetOf_single hline htarget, targets_single hline htarget, List.map_singleton]
  dsimp only
  rw [hname, hfirst, hsecond]

theorem Conforming.stagedName_old (hsimple : ∀ patch ∈ old, Simple patch) {patch : Word} (hpatch : patch ∈ old) :
    stagedName (mapExistingPatches sh patches old) (stdTarget sh (targetOf sh patches patch)) = patch := by
  rw [stagedName, h.patchmap hsimple]
  cases hfind : (old.map fun patch => (patch, stdTarget sh (targetOf sh patches patch))).find? fun line =>
      line.2 = stdTarget sh (targetOf sh patches patch) with
  | none =>
    have hnone := List.find?_eq_none.1 hfind _ (List.mem_map.2 ⟨patch, hpatch, rfl⟩)
    exact absurd (decide_eq_true rfl) hnone
  | some line =>
    obtain ⟨patch', hpatch', rfl⟩ := List.mem_map.1 (List.mem_of_find?_eq_some hfind)
    have hname := List.find?_some hfind
    exact h.apart patch' hpatch' patch hpatch (of_decide_eq_true hname)

theorem Conforming.stagedName_new (hsimple : ∀ patch ∈ old, Simple patch) {n : Text}
    (hn : ∀ patch ∈ old, stdTarget sh (targetOf sh patches patch) ≠ n) :
    stagedName (mapExistingPatches sh patches old) n = n := by
  have hfind : (mapExistingPatches sh patches old).find? (fun line => line.2 = n) = none := by
    rw [h.patchmap hsimple]
    refine List.find?_eq_none.2 fun line hline heq => ?_
    obtain ⟨patch, hpatch, rfl⟩ := List.mem_map.1 hline
    exact hn patch hpatch (of_decide_eq_true heq)
  rw [stagedName, hfind]
  rfl

theorem Conforming.comments : extractComments sh awk patches old =
    KeyedWrites.writeAll (fun patch => stdTarget sh (targetOf sh patches patch))
      (fun patch => comment awk 1 (linesOf (textOf patches patch))) (fun _ => none) old := by
  refine List.foldl_ext _ _ _ fun comments patch hpatch => ?_
  obtain ⟨line, hline, htarget, -⟩ := h.single patch hpatch
  rw [extractCommentFromPatch, hline, KeyedWrites.write, targetOf_single hline htarget]
  rfl

theorem Conforming.comments_old {patch : Word} (hpatch : patch ∈ old) :
    extractComments sh awk patches old (stdTarget sh (targetOf sh patches patch)) =
      some (comment awk 1 (linesOf (textOf patches patch))) := by
  rw [h.comments awk]
  obtain ⟨before, last, after, hsplit, hkey, hlast⟩ :=
    KeyedWrites.exists_last (fun patch => stdTarget sh (targetOf sh patches patch)) hpatch
  have hsame : last = patch := h.apart last (by rw [hsplit]; simp) patch hpatch hkey
  rw [← hkey, hsplit, KeyedWrites.writeAll_last hlast, hsame]

theorem Conforming.comments_new {n : Text} (hn : ∀ patch ∈ old, stdTarget sh (targetOf sh patches patch) ≠ n) :
    extractComments sh awk patches old n = none := by
  rw [h.comments awk]
  exact KeyedWrites.writeAll_other hn

end Conforming

section Comments

theorem comment_sub (awk : Awk) (num : ℕ) (file : List Line) : ∀ line ∈ comment awk num file, line ∈ file := by
  have hscan : ∀ s, ∀ line ∈ (scan (step awk num) s file).2, line ∈ file := by
    induction file with
    | nil => exact fun _ _ h => h
    | cons first file ih =>
      intro s line hline
      rw [scan_cons] at hline
      rcases List.mem_append.1 hline with hline | hline
      · unfold step at hline
        dsimp only at hline
        split_ifs at hline
        · cases hline
        · cases hline
        · exact List.mem_singleton.1 hline ▸ List.mem_cons_self
        · cases hline
      · exact List.mem_cons_of_mem _ (ih _ line hline)
  exact hscan _

theorem target_field {line : Line} (h : isTarget line) : field 1 line = "+++".toList := by
  obtain ⟨rest, rfl⟩ := List.isPrefixOf_iff_prefix.1 h
  have hfirst : field 1 ("+++".toList ++ ' ' :: rest) = "+++".toList :=
    field_first (List.forall_iff_forall_mem.1 (by decide)) (by decide)
  exact hfirst

theorem not_target {line : Line} (h : field 1 line ∉ reserved) : isTarget line = false := by
  rw [Bool.eq_false_iff]
  intro htarget
  refine h ?_
  rw [target_field htarget]
  decide

theorem comment_again (awk : Awk) {comments rest : List Line} {header : Line} (hcomments : ∀ line ∈ comments, field 1 line ∉ reserved)
    (hheader : field 1 header = "---".toList) : comment awk 1 (comments ++ header :: rest) = comments := by
  have hfree : ∀ line ∈ comments, field 1 line ≠ "---".toList ∧ field 1 line ≠ "@@".toList := fun line hline =>
    ⟨fun heq => hcomments line hline (heq ▸ by decide), fun heq => hcomments line hline (heq ▸ by decide)⟩
  have hat : At (start 1) 0 true := ⟨rfl, rfl, rfl⟩
  rw [comment, scan_append, scan_closed awk 1 hat rfl hfree]
  dsimp only
  rw [scan_own_header awk 1 hat hheader rfl, List.append_nil]
  exact List.filter_eq_self.2 fun line hline => decide_eq_true (hcomments line hline)

end Comments

/-- What `diff` prints of a source: two headers, and no other line that passes for the second. -/
structure Headed (q : Word) (diff : Text) : Prop where
  lines : ∃ old new body, diff = ofLines (old :: new :: body) ∧ (∀ line ∈ old :: new :: body, '\n' ∉ line) ∧
    field 1 old = "---".toList ∧ isTarget new ∧ field 2 new = q ∧ ∀ line ∈ body, isTarget line = false

section Stable
variable {sh : Shell} (awk : Awk) {t : Tree} {names order : List Text} {p : Port}

/-- The name of a patch of a source is known to the map, or free. -/
structure Free (sh : Shell) (t : Tree) (names : List Text) (patches : Patches) : Prop where
  conforming : Conforming sh patches (oldPatchList sh names)
  free : ∀ q, t.Modified q → "patch-".toList ++ mangle q ∈ oldPatchList sh names →
    stdTarget sh (targetOf sh patches ("patch-".toList ++ mangle q)) = "patch-".toList ++ mangle q

variable (sh p names) in
def placeOf (q : Word) : Text :=
  stagedName (mapExistingPatches sh p.patches (oldPatchList sh names)) ("patch-".toList ++ mangle q)

theorem simple_old (h : Orderly sh t names order p) : ∀ patch ∈ oldPatchList sh names, Simple patch := fun patch hpatch =>
  (h.plain.names_simple patch (h.plain.old patch hpatch)).1

theorem placeOf_cases (h : Orderly sh t names order p) (hfree : Free sh t names p.patches) (q : Word) :
    (placeOf sh names p q ∈ oldPatchList sh names ∧
        stdTarget sh (targetOf sh p.patches (placeOf sh names p q)) = "patch-".toList ++ mangle q) ∨
      placeOf sh names p q = "patch-".toList ++ mangle q ∧
        ∀ patch ∈ oldPatchList sh names, stdTarget sh (targetOf sh p.patches patch) ≠ "patch-".toList ++ mangle q := by
  by_cases hold : ∃ patch ∈ oldPatchList sh names, stdTarget sh (targetOf sh p.patches patch) = "patch-".toList ++ mangle q
  · obtain ⟨patch, hpatch, htarget⟩ := hold
    have hplace : placeOf sh names p q = patch := by
      rw [placeOf, ← htarget, hfree.conforming.stagedName_old (simple_old h) hpatch]
    rw [hplace]
    exact .inl ⟨hpatch, htarget⟩
  · have hnew : ∀ patch ∈ oldPatchList sh names, stdTarget sh (targetOf sh p.patches patch) ≠ "patch-".toList ++ mangle q :=
      fun patch hpatch heq => hold ⟨patch, hpatch, heq⟩
    exact .inr ⟨hfree.conforming.stagedName_new (simple_old h) hnew, hnew⟩

theorem placeOf_target (h : Orderly sh t names order p) (hfree : Free sh t names p.patches) {q : Word} (hq : t.Modified q)
    (hold : placeOf sh names p q ∈ oldPatchList sh names) :
    stdTarget sh (targetOf sh p.patches (placeOf sh names p q)) = "patch-".toList ++ mangle q := by
  rcases placeOf_cases h hfree q with ⟨-, htarget⟩ | ⟨hplace, -⟩
  · exact htarget
  · rw [hplace] at hold ⊢
    exact hfree.free q hq hold

theorem placeOf_of_target (h : Orderly sh t names order p) (hfree : Free sh t names p.patches) {q patch : Word}
    (hpatch : patch ∈ oldPatchList sh names)
    (htarget : stdTarget sh (targetOf sh p.patches patch) = "patch-".toList ++ mangle q) : placeOf sh names p q = patch := by
  rw [placeOf, ← htarget, hfree.conforming.stagedName_old (simple_old h) hpatch]

theorem placeOf_injective (h : Orderly sh t names order p) (hfree : Free sh t names p.patches) {q r : Word}
    (hq : t.Modified q) (hr : t.Modified r) (hplace : placeOf sh names p q = placeOf sh names p r) : q = r := by
  have hstd : "patch-".toList ++ mangle q = "patch-".toList ++ mangle r := by
    by_cases hold : placeOf sh names p q ∈ oldPatchList sh names
    · rw [← placeOf_target h hfree hq hold, hplace, placeOf_target h hfree hr (hplace ▸ hold)]
    · rcases placeOf_cases h hfree q with ⟨hin, -⟩ | ⟨hq', -⟩
      · exact absurd hin hold
      · rcases placeOf_cases h hfree r with ⟨hin, -⟩ | ⟨hr', -⟩
        · exact absurd (hplace ▸ hin) hold
        · rw [← hq', hplace, hr']
  exact h.shapes q r hq hr ((mangle_eq_iff q r).1 (List.append_cancel_left hstd))

variable (sh t p names) in
def fullText (q : Word) : Text := stagedText sh (sourcesOf sh awk t names p) ("patch-".toList ++ mangle q)

theorem staged_place (h : Orderly sh t names order p) (hfree : Free sh t names p.patches) (hnodup : order.Nodup) (m : Text) :
    (∀ q, t.Modified q → placeOf sh names p q = m →
        (stagedFiles sh awk t names order p).lookup m = some (fullText sh awk t names p q)) ∧
      ((∀ q, t.Modified q → placeOf sh names p q ≠ m) → (stagedFiles sh awk t names order p).lookup m = none) := by
  rw [h.staged_lookup]
  refine ⟨fun q hq hplace => ?_, fun hnone => ?_⟩
  · have hin : "patch-".toList ++ mangle q ∈ order := (h.order_modified _).2 ⟨q, hq, rfl⟩
    have hname : stagedName (sourcesOf sh awk t names p).patchmap ("patch-".toList ++ mangle q) = m := hplace
    have halone : order.filter (stagedName (sourcesOf sh awk t names p).patchmap · = m) = ["patch-".toList ++ mangle q] := by
      refine List.Perm.eq_singleton ((List.perm_ext_iff_of_nodup (hnodup.filter _) (by simp)).2 fun n => ?_)
      rw [List.mem_filter, List.mem_singleton, decide_eq_true_eq]
      constructor
      · rintro ⟨hn, heq⟩
        obtain ⟨r, hr, rfl⟩ := (h.order_modified n).1 hn
        rw [placeOf_injective h hfree hr hq (heq.trans hplace.symm)]
      · rintro rfl
        exact ⟨hin, hname⟩
    rw [if_pos ⟨_, hin, hname⟩, halone, List.flatMap_singleton]
    rfl
  · rw [if_neg]
    rintro ⟨n, hn, hname⟩
    obtain ⟨q, hq, rfl⟩ := (h.order_modified n).1 hn
    exact hnone q hq hname

end Stable

section Names
variable {sh : Shell}

theorem validName_args (patch target std : Word) : validName sh [patch, target, std] =
    sh.echo (sh.words .port (if ∃ lps ∈ separators, "patch-".toList ++ separated lps (sh.echo (sh.words .port
      (without "./".toList (sh.echo (sh.words .port target))))) = patch then patch else std)) := rfl

theorem validName_path {patch target target' : Word} (hpatch : Simple patch) (h : Target target) (h' : Target target')
    (hpath : without "./".toList target = without "./".toList target') :
    validName sh (sh.words .port patch ++ sh.words .port target ++ sh.words .port (stdTarget sh target)) =
      validName sh (sh.words .port patch ++ sh.words .port target' ++ sh.words .port (stdTarget sh target')) := by
  have hstd : stdTarget sh target = stdTarget sh target' := by rw [stdTarget_eq h, stdTarget_eq h', hpath]
  have hname : Simple (stdTarget sh target') := by
    rw [stdTarget_eq h']
    exact h'.path.patch
  rw [hstd, hpatch.leaves .port, h.word.leaves .port, h'.word.leaves .port, hname.leaves .port]
  change validName sh [patch, target, stdTarget sh target'] = validName sh [patch, target', stdTarget sh target']
  rw [validName_args, validName_args, echo_left h.word.leaves h.word.option, echo_left h'.word.leaves h'.word.option, hpath]

theorem futureName_one (patch target : Word) : futureName sh patch [] [target] =
    validName sh (sh.words .port patch ++ sh.words .port target ++ sh.words .port (stdTarget sh target)) := by
  rw [futureName, if_neg (not_not_intro rfl), futureName]

variable (sh) in
theorem source_target {t : Tree} {q : Word} (hq : t.Modified q) (h : Simple q) :
    Target q ∧ without "./".toList q = q ∧ stdTarget sh q = "patch-".toList ++ mangle q := by
  have hpath : without "./".toList q = q := if_neg (t.relative q hq.1)
  have htarget : Target q := ⟨h, by rwa [hpath]⟩
  exact ⟨htarget, hpath, by rw [stdTarget_eq htarget, hpath]⟩

end Names

/-- A tree and old patches with which the script comes to rest. -/
structure Standard (sh : Shell) (t : Tree) (names order : List Text) (p : Port) : Prop where
  orderly : Orderly sh t names order p
  free : Free sh t names p.patches
  nodup : order.Nodup
  headed : ∀ q, t.Modified q → Headed q (t.diffOf q)
  listed : ∀ q, t.Modified q → Simple q ∧ Listed ("patch-".toList ++ mangle q)
  own : ∀ q, t.Modified q → ∀ patch ∈ oldPatchList sh names,
    stdTarget sh (targetOf sh p.patches patch) = "patch-".toList ++ mangle q → without "./".toList (targetOf sh p.patches patch) = q

section Rest
variable {sh : Shell} (awk : Awk) {t : Tree} {names order : List Text} {p : Port} (h : Standard sh t names order p)
include h

theorem Standard.comment_cases (q : Word) :
    (placeOf sh names p q ∈ oldPatchList sh names ∧ (sourcesOf sh awk t names p).comments ("patch-".toList ++ mangle q) =
        some (comment awk 1 (linesOf (textOf p.patches (placeOf sh names p q))))) ∨
      (placeOf sh names p q = "patch-".toList ++ mangle q ∧
        (sourcesOf sh awk t names p).comments ("patch-".toList ++ mangle q) = none) := by
  rcases placeOf_cases h.orderly h.free q with ⟨hold, htarget⟩ | ⟨hplace, hnew⟩
  · refine .inl ⟨hold, ?_⟩
    have hcomments := h.free.conforming.comments_old awk hold
    rwa [htarget] at hcomments
  · exact .inr ⟨hplace, h.free.conforming.comments_new awk hnew⟩

theorem Standard.full_lines {q : Word} (hq : t.Modified q) : ∃ new, isTarget new ∧ field 2 new = q ∧
    (linesOf (fullText sh awk t names p q)).filter isTarget = [new] ∧
    ofLines (comment awk 1 (linesOf (fullText sh awk t names p q))) =
      (((sourcesOf sh awk t names p).comments ("patch-".toList ++ mangle q)).map ofLines).getD [] := by
  obtain ⟨old, new, body, hdiff, hplain, hold, hnew, hname, hbody⟩ := h.headed q hq
  obtain ⟨comments, hcomments, hlines, hfree⟩ : ∃ comments : List Line,
      (((sourcesOf sh awk t names p).comments ("patch-".toList ++ mangle q)).map ofLines).getD [] = ofLines comments ∧
        (∀ line ∈ comments, '\n' ∉ line) ∧ ∀ line ∈ comments, field 1 line ∉ reserved := by
    rcases h.comment_cases awk q with ⟨-, hsome⟩ | ⟨-, hnone⟩
    · refine ⟨_, by rw [hsome]; rfl, fun line hline => linesOf_plain (comment_sub awk 1 _ line hline), comment_plain awk 1 _⟩
    · exact ⟨[], by rw [hnone]; rfl, nofun, nofun⟩
  have hfull : linesOf (fullText sh awk t names p q) = comments ++ old :: new :: body := by
    rw [fullText, h.orderly.text_eq awk hq, hcomments, hdiff, ofLines, ofLines, ← List.flatMap_append]
    exact linesOf_ofLines fun line hline => (List.mem_append.1 hline).elim (hlines line) (hplain line)
  have hheader : isTarget old = false := by
    rw [Bool.eq_false_iff]
    intro htarget
    rw [target_field htarget] at hold
    revert hold
    decide
  refine ⟨new, hnew, hname, ?_, ?_⟩
  · rw [hfull, List.filter_append, List.filter_eq_nil_iff.2 fun line hline => ?_, List.nil_append,
      List.filter_cons_of_neg (by rw [hheader]; exact Bool.false_ne_true), List.filter_cons_of_pos hnew,
      List.filter_eq_nil_iff.2 fun line hline => ?_]
    · rw [hbody line hline]
      exact Bool.false_ne_true
    · rw [not_target (hfree line hline)]
      exact Bool.false_ne_true
  · rw [hfull, comment_again awk hfree hold, hcomments]

theorem Standard.diffs (q : Word) (hq : t.Modified q) : t.diffOf q ≠ [] := by
  obtain ⟨old, new, body, hdiff, -⟩ := h.headed q hq
  rw [hdiff]
  exact fun heq => absurd (List.flatMap_eq_nil_iff.1 heq old List.mem_cons_self) (by simp)

theorem Standard.after_cases {m text : Text} (htext : (run sh awk t names order p).patches m = some text) :
    (∃ q, t.Modified q ∧ placeOf sh names p q = m ∧ (text = fullText sh awk t names p q ∨
        m ∈ oldPatchList sh names ∧ p.patches m = some text ∧ withoutMetadata text = withoutMetadata (fullText sh awk t names p q))) ∨
      (∀ q, t.Modified q → placeOf sh names p q ≠ m) ∧ p.patches m = some text := by
  obtain ⟨hstaged, hunstaged⟩ := staged_place awk h.orderly h.free h.nodup m
  by_cases hplace : ∃ q, t.Modified q ∧ placeOf sh names p q = m
  · obtain ⟨q, hq, hm⟩ := hplace
    obtain ⟨text', htext', hcases⟩ := h.orderly.placed awk h.diffs (hstaged q hq hm)
    obtain rfl : text' = text := Option.some.inj (htext'.symm.trans htext)
    exact .inl ⟨q, hq, hm, hcases⟩
  · have hnone : ∀ q, t.Modified q → placeOf sh names p q ≠ m := fun q hq hm => hplace ⟨q, hq, hm⟩
    refine .inr ⟨hnone, ?_⟩
    rwa [h.orderly.unstaged awk (hunstaged hnone)] at htext

theorem Standard.place_named {q : Word} (hq : t.Modified q) :
    futureName sh (placeOf sh names p q) [] [q] = placeOf sh names p q := by
  obtain ⟨htarget, hpath, hstd⟩ := source_target sh hq (h.listed q hq).1
  rw [futureName_one]
  rcases placeOf_cases h.orderly h.free q with ⟨hold, hold'⟩ | ⟨hplace, -⟩
  · obtain ⟨line, hline, hplain, hname⟩ := h.free.conforming.single _ hold
    have hsame := h.own q hq _ hold hold'
    rw [targetOf_single hline hplain] at hsame
    rw [futureName_one] at hname
    rw [validName_path (simple_old h.orderly _ hold) htarget hplain (hpath.trans hsame.symm), hname]
  · have hsimple : Simple (placeOf sh names p q) := by
      rw [hplace]
      exact (h.listed q hq).1.patch
    rcases validName_cases sh hsimple htarget with heq | heq
    · exact heq
    · rw [heq, hstd, hplace]

variable {names' : List Text} (hlisting : Listing sh (run sh awk t names order p).patches names')
include hlisting

theorem Standard.single_after {m : Text} (hm : m ∈ oldPatchList sh names') :
    ∃ line, (linesOf (textOf (run sh awk t names order p).patches m)).filter isTarget = [line] ∧ Target (field 2 line) ∧
      futureName sh m [] [field 2 line] = m ∧
      (∀ q, t.Modified q → placeOf sh names p q = m → stdTarget sh (field 2 line) = "patch-".toList ++ mangle q) ∧
      ((∀ q, t.Modified q → placeOf sh names p q ≠ m) → m ∈ oldPatchList sh names ∧
        stdTarget sh (field 2 line) = stdTarget sh (targetOf sh p.patches m)) := by
  obtain ⟨hlisted, hsome⟩ := (mem_oldPatchList hlisting m).1 hm
  obtain ⟨text, htext⟩ := Option.isSome_iff_exists.1 hsome
  have hread : textOf (run sh awk t names order p).patches m = text := by rw [textOf, htext]; rfl
  have hkept : ∀ hold : m ∈ oldPatchList sh names, p.patches m = some text →
      ∃ line, (linesOf text).filter isTarget = [line] ∧ Target (field 2 line) ∧ futureName sh m [] [field 2 line] = m ∧
        targetOf sh p.patches m = field 2 line := by
    intro hold hsame
    obtain ⟨line, hline, htarget, hname⟩ := h.free.conforming.single m hold
    have htarget' : targetOf sh p.patches m = field 2 line := targetOf_single hline htarget
    rw [textOf, hsame] at hline
    exact ⟨line, hline, htarget, hname, htarget'⟩
  rw [hread]
  rcases h.after_cases awk htext with ⟨q, hq, rfl, rfl | ⟨hold, hsame, -⟩⟩ | ⟨hnone, hsame⟩
  · obtain ⟨new, -, hname, hfilter, -⟩ := h.full_lines awk hq
    obtain ⟨htarget, -, hstd⟩ := source_target sh hq (h.listed q hq).1
    refine ⟨new, hfilter, by rwa [hname], by rw [hname]; exact h.place_named hq, fun r hr hplace => ?_, fun hnot => ?_⟩
    · rw [hname, placeOf_injective h.orderly h.free hr hq hplace, hstd]
    · exact absurd rfl (hnot q hq)
  · obtain ⟨line, hline, htarget, hname, htarget'⟩ := hkept hold hsame
    refine ⟨line, hline, htarget, hname, fun r hr hplace => ?_, fun hnot => absurd rfl (hnot q hq)⟩
    rw [← htarget', ← hplace]
    exact placeOf_target h.orderly h.free hr (hplace ▸ hold)
  · have hold : m ∈ oldPatchList sh names := (mem_oldPatchList h.orderly.listing m).2 ⟨hlisted, by rw [hsame]; rfl⟩
    obtain ⟨line, hline, htarget, hname, htarget'⟩ := hkept hold hsame
    refine ⟨line, hline, htarget, hname, fun r hr hplace => absurd hplace (hnone r hr), fun _ => ⟨hold, by rw [htarget']⟩⟩

theorem Standard.place_listed {q : Word} (hq : t.Modified q) : placeOf sh names p q ∈ oldPatchList sh names' := by
  obtain ⟨hstaged, -⟩ := staged_place awk h.orderly h.free h.nodup (placeOf sh names p q)
  obtain ⟨text, htext, -⟩ := h.orderly.placed awk h.diffs (hstaged q hq rfl)
  refine (mem_oldPatchList hlisting _).2 ⟨?_, by rw [htext]; rfl⟩
  rcases placeOf_cases h.orderly h.free q with ⟨hold, -⟩ | ⟨hplace, -⟩
  · exact ((mem_oldPatchList h.orderly.listing _).1 hold).1
  · rw [hplace]
    exact (h.listed q hq).2

theorem Standard.target_place {q : Word} (hq : t.Modified q) :
    stdTarget sh (targetOf sh (run sh awk t names order p).patches (placeOf sh names p q)) = "patch-".toList ++ mangle q := by
  obtain ⟨line, hline, htarget, -, hname, -⟩ := h.single_after awk hlisting (h.place_listed awk hlisting hq)
  rw [targetOf_single hline htarget]
  exact hname q hq rfl

theorem Standard.target_other {m : Text} (hm : m ∈ oldPatchList sh names') (hnone : ∀ q, t.Modified q → placeOf sh names p q ≠ m) :
    m ∈ oldPatchList sh names ∧
      stdTarget sh (targetOf sh (run sh awk t names order p).patches m) = stdTarget sh (targetOf sh p.patches m) := by
  obtain ⟨line, hline, htarget, -, -, hname⟩ := h.single_after awk hlisting hm
  rw [targetOf_single hline htarget]
  exact hname hnone

theorem Standard.free_after : Free sh t names' (run sh awk t names order p).patches := by
  have hplaced : ∀ m ∈ oldPatchList sh names', ∀ q, t.Modified q →
      stdTarget sh (targetOf sh (run sh awk t names order p).patches m) = "patch-".toList ++ mangle q → placeOf sh names p q = m := by
    intro m hm q hq htarget
    by_cases hplace : ∃ r, t.Modified r ∧ placeOf sh names p r = m
    · obtain ⟨r, hr, rfl⟩ := hplace
      rw [h.target_place awk hlisting hr] at htarget
      rw [h.orderly.shapes r q hr hq ((mangle_eq_iff r q).1 (List.append_cancel_left htarget))]
    · obtain ⟨hold, hsame⟩ := h.target_other awk hlisting hm fun r hr heq => hplace ⟨r, hr, heq⟩
      exact placeOf_of_target h.orderly h.free hold (hsame.symm.trans htarget)
  refine ⟨⟨fun m hm => ?_, fun m hm m' hm' heq => ?_⟩, fun q hq hin => ?_⟩
  · obtain ⟨line, hline, htarget, hname, -⟩ := h.single_after awk hlisting hm
    exact ⟨line, hline, htarget, hname⟩
  · by_cases hplace : ∃ r, t.Modified r ∧ placeOf sh names p r = m
    · obtain ⟨r, hr, rfl⟩ := hplace
      exact hplaced m' hm' r hr (heq.symm.trans (h.target_place awk hlisting hr))
    · obtain ⟨hold, hsame⟩ := h.target_other awk hlisting hm fun r hr hm => hplace ⟨r, hr, hm⟩
      by_cases hplace' : ∃ r, t.Modified r ∧ placeOf sh names p r = m'
      · obtain ⟨r, hr, rfl⟩ := hplace'
        exact (hplaced m hm r hr (heq.trans (h.target_place awk hlisting hr))).symm
      · obtain ⟨hold', hsame'⟩ := h.target_other awk hlisting hm' fun r hr hm => hplace' ⟨r, hr, hm⟩
        exact h.free.conforming.apart m hold m' hold' ((hsame.symm.trans heq).trans hsame')
  · by_cases hplace : ∃ r, t.Modified r ∧ placeOf sh names p r = "patch-".toList ++ mangle q
    · obtain ⟨r, hr, hr'⟩ := hplace
      have hname := h.target_place awk hlisting hr
      rw [hr'] at hname
      rw [hname]
      -- the patch of another source is under this name only where this source is that one
      rcases placeOf_cases h.orderly h.free r with ⟨hold, hold'⟩ | ⟨hnew, -⟩
      · rw [hr'] at hold hold'
        rw [← hold', h.free.free q hq hold]
      · exact hnew.symm.trans hr'
    · obtain ⟨hold, hsame⟩ := h.target_other awk hlisting hin fun r hr heq => hplace ⟨r, hr, heq⟩
      rw [hsame, h.free.free q hq hold]

theorem Standard.plain_after : Plain (run sh awk t names order p).patches names' := by
  have hsome : ∀ n ∈ names', ∃ text, (run sh awk t names order p).patches n = some text := fun n hn =>
    Option.isSome_iff_exists.1 ((hlisting.mem_names n).1 hn).2
  have hkept : ∀ n ∈ names', ∀ text, p.patches n = some text → n ∈ names := fun n hn text htext =>
    (h.orderly.listing.mem_names n).2 ⟨((hlisting.mem_names n).1 hn).1, by rw [htext]; rfl⟩
  refine ⟨fun n hn => ?_, fun n hn line hline htarget => ?_⟩
  · obtain ⟨text, htext⟩ := hsome n hn
    rcases h.after_cases awk htext with ⟨q, hq, rfl, -⟩ | ⟨-, hsame⟩
    · rcases placeOf_cases h.orderly h.free q with ⟨hold, -⟩ | ⟨hnew, -⟩
      · exact h.orderly.plain.names_simple _ (h.orderly.plain.old _ hold)
      · rw [hnew, List.mem_append, not_or]
        exact ⟨(h.listed q hq).1.patch, by decide, mangle_file q⟩
    · exact h.orderly.plain.names_simple n (hkept n hn text hsame)
  · obtain ⟨text, htext⟩ := hsome n hn
    have hread : textOf (run sh awk t names order p).patches n = text := by rw [textOf, htext]; rfl
    rw [hread] at hline
    have hold : p.patches n = some text → Target (field 2 line) := fun hsame => by
      have hread' : textOf p.patches n = text := by rw [textOf, hsame]; rfl
      exact h.orderly.plain.targets_plain n (hkept n hn text hsame) line (by rwa [hread']) htarget
    rcases h.after_cases awk htext with ⟨q, hq, rfl, rfl | ⟨-, hsame, -⟩⟩ | ⟨-, hsame⟩
    · obtain ⟨new, -, hname, hfilter, -⟩ := h.full_lines awk hq
      have hmem := List.mem_filter.2 ⟨hline, htarget⟩
      rw [hfilter, List.mem_singleton] at hmem
      rw [hmem, hname]
      exact (source_target sh hq (h.listed q hq).1).1
    · exact hold hsame
    · exact hold hsame

variable {order' : List Text} (horder : ∀ n, n ∈ order' ↔ n ∈ order)
include horder

theorem Standard.orderly_after : Orderly sh t names' order' (run sh awk t names order p) where
  listing := hlisting
  plain := h.plain_after awk hlisting
  kept := h.orderly.kept
  shapes := h.orderly.shapes
  mem_order n := (horder n).trans (h.orderly.mem_order n)

theorem Standard.place_after {q : Word} (hq : t.Modified q) :
    placeOf sh names' (run sh awk t names order p) q = placeOf sh names p q :=
  placeOf_of_target (h.orderly_after awk hlisting horder) (h.free_after awk hlisting) (h.place_listed awk hlisting hq)
    (h.target_place awk hlisting hq)

theorem Standard.full_after {q : Word} (hq : t.Modified q) :
    fullText sh awk t names' (run sh awk t names order p) q = fullText sh awk t names p q := by
  have hcomments := (h.free_after awk hlisting).conforming.comments_old awk (h.place_listed awk hlisting hq)
  rw [h.target_place awk hlisting hq] at hcomments
  obtain ⟨text, htext⟩ := Option.isSome_iff_exists.1
    ((mem_oldPatchList hlisting _).1 (h.place_listed awk hlisting hq)).2
  have hread : textOf (run sh awk t names order p).patches (placeOf sh names p q) = text := by rw [textOf, htext]; rfl
  have hafter : (sourcesOf sh awk t names' (run sh awk t names order p)).comments ("patch-".toList ++ mangle q) =
      some (comment awk 1 (linesOf text)) := by rw [← hread]; exact hcomments
  have hsame : ofLines (comment awk 1 (linesOf text)) =
      (((sourcesOf sh awk t names p).comments ("patch-".toList ++ mangle q)).map ofLines).getD [] := by
    rcases h.after_cases awk htext with ⟨r, hr, hplace, rfl | ⟨hold, hkept, -⟩⟩ | ⟨hnone, -⟩
    · obtain rfl := placeOf_injective h.orderly h.free hr hq hplace
      obtain ⟨-, -, -, -, hcomment⟩ := h.full_lines awk hr
      exact hcomment
    · have hbefore := h.free.conforming.comments_old awk hold
      rw [placeOf_target h.orderly h.free hq hold] at hbefore
      have hread' : textOf p.patches (placeOf sh names p q) = text := by rw [textOf, hkept]; rfl
      rw [hread'] at hbefore
      change _ = ((extractComments sh awk p.patches (oldPatchList sh names) ("patch-".toList ++ mangle q)).map ofLines).getD []
      rw [hbefore]
      rfl
    · exact absurd rfl (hnone q hq)
  rw [fullText, fullText, (h.orderly_after awk hlisting horder).text_eq awk hq, h.orderly.text_eq awk hq, hafter, ← hsame]
  rfl

/-- Run again on the same tree the script changes nothing. -/
theorem run_stable (hnodup : order'.Nodup) : run sh awk t names' order' (run sh awk t names order p) =
    ⟨(run sh awk t names order p).patches, fun _ => none⟩ := by
  have horderly := h.orderly_after awk hlisting horder
  have hfree := h.free_after awk hlisting
  have hrest : ∀ m, (remaining sh awk t names' order' (run sh awk t names order p)).lookup m = none ∧
      ¬ Moved (run sh awk t names order p) (stagedFiles sh awk t names' order' (run sh awk t names order p)) m := by
    intro m
    obtain ⟨hstaged, hunstaged⟩ := staged_place awk horderly hfree hnodup m
    by_cases hplace : ∃ q, t.Modified q ∧ placeOf sh names p q = m
    · obtain ⟨q, hq, rfl⟩ := hplace
      have hlookup := hstaged q hq (h.place_after awk hlisting horder hq)
      rw [h.full_after awk hlisting horder hq] at hlookup
      have hin := (mem_oldPatchList hlisting _).1 (h.place_listed awk hlisting hq)
      obtain ⟨text, htext⟩ := Option.isSome_iff_exists.1 hin.2
      have hmeta : withoutMetadata text = withoutMetadata (fullText sh awk t names p q) := by
        rcases h.after_cases awk htext with ⟨r, hr, hplace, rfl | ⟨-, -, hmeta⟩⟩ | ⟨hnone, -⟩
        · rw [placeOf_injective h.orderly h.free hr hq hplace]
        · rwa [placeOf_injective h.orderly h.free hr hq hplace] at hmeta
        · exact absurd rfl (hnone q hq)
      have hsame : same (run sh awk t names order p).patches
          (stagedFiles sh awk t names' order' (run sh awk t names order p)) (placeOf sh names p q) := by
        rw [same, hlookup, Option.any_some, decide_eq_true_eq, textOf, htext]
        exact hmeta
      refine ⟨(PatchRegeneration.remaining_lookup hlisting _).1 ⟨hin, hsame⟩, fun hmoved => ?_⟩
      have hchanged := hmoved.2
      rw [same_unchanged hsame] at hchanged
      cases hchanged
    · have hnone := hunstaged fun q hq heq => hplace ⟨q, hq, (h.place_after awk hlisting horder hq).symm.trans heq⟩
      have hnever : ¬ (m ∈ oldPatchList sh names' ∧ same (run sh awk t names order p).patches
          (stagedFiles sh awk t names' order' (run sh awk t names order p)) m) := by
        rintro ⟨-, hsame⟩
        rw [same, hnone] at hsame
        cases hsame
      refine ⟨by rw [horderly.remaining_lookup awk m hnever, hnone], fun hmoved => ?_⟩
      have hchanged := hmoved.2
      rw [changed, hnone] at hchanged
      cases hchanged
  have hpatches : (run sh awk t names' order' (run sh awk t names order p)).patches = (run sh awk t names order p).patches := by
    funext m
    rw [(run_patches m).1, (hrest m).1, ite_self, ((conserved hlisting _ m).2 (hrest m).2).1]
    rfl
  have hsaved : (run sh awk t names' order' (run sh awk t names order p)).saved = fun _ => none := by
    funext m
    rw [(run_patches m).2, ((conserved hlisting _ m).2 (hrest m).2).2]
  calc run sh awk t names' order' (run sh awk t names order p)
    _ = ⟨(run sh awk t names' order' (run sh awk t names order p)).patches,
          (run sh awk t names' order' (run sh awk t names order p)).saved⟩ := rfl
    _ = _ := by rw [hpatches, hsaved]

end Rest

theorem outdated_old : oldPatchList plainShell ["patch-a".toList] = ["patch-a".toList] := by decide

theorem outdated_target : targetOf plainShell outdated.patches "patch-a".toList = "a".toList := by decide

theorem revised_standard : Standard plainShell revised ["patch-a".toList] ["patch-a".toList] outdated where
  orderly := revised_orderly
  free :=
    { conforming :=
        { single := by
            rw [outdated_old, List.forall_mem_singleton]
            exact ⟨"+++ a".toList, by decide, target_a, by decide +kernel⟩
          apart := by
            rw [outdated_old]
            intro patch hpatch patch' hpatch' _
            rw [List.mem_singleton.1 hpatch, List.mem_singleton.1 hpatch'] }
      free := by
        intro q hq _
        rw [(revised_modified q).1 hq]
        decide +kernel }
  nodup := by simp
  headed q hq := by
    rw [(revised_modified q).1 hq]
    exact ⟨_, _, _, rfl, List.forall_iff_forall_mem.1 (by decide), by decide, by decide, by decide,
      List.forall_iff_forall_mem.1 (by decide)⟩
  listed q hq := by
    rw [(revised_modified q).1 hq]
    exact ⟨target_a.word, by unfold Listed; decide⟩
  own q hq patch hpatch _ := by
    rw [outdated_old, List.mem_singleton] at hpatch
    rw [hpatch, outdated_target, (revised_modified q).1 hq]
    decide

theorem revised_stable : run plainShell digitsAwk revised ["patch-a".toList] ["patch-a".toList]
    (run plainShell digitsAwk revised ["patch-a".toList] ["patch-a".toList] outdated) =
      ⟨(run plainShell digitsAwk revised ["patch-a".toList] ["patch-a".toList] outdated).patches, fun _ => none⟩ := by
  refine run_stable digitsAwk revised_standard ⟨fun n => ?_, List.forall_iff_forall_mem.1 (by decide)⟩ (fun n => Iff.rfl) (by simp)
  rw [List.mem_singleton]
  constructor
  · rintro rfl
    exact ⟨by decide, by decide +kernel⟩
  · rintro ⟨-, hsome⟩
    obtain ⟨text, htext⟩ := Option.isSome_iff_exists.1 hsome
    by_contra hn
    rcases revised_standard.after_cases digitsAwk htext with ⟨q, hq, rfl, -⟩ | ⟨-, hsame⟩
    · refine hn ?_
      rw [(revised_modified q).1 hq]
      decide +kernel
    · change (if n = "patch-a".toList then some outdatedPatch else none) = some text at hsame
      rw [if_neg hn] at hsame
      cases hsame

end Mports.PatchRegeneration
