import Mports.PatchRegeneration

set_option autoImplicit false

namespace Mports.PatchRegeneration
open ShellText Distinfo PatchNames PatchComments

section Names
variable {sh : Shell}

/-- A word that the shell and echo leave as it is. -/
structure Simple (word : Word) : Prop where
  nonempty : word ≠ []
  plain : ∀ c ∈ word, isBlank c = false ∧ c ∉ wildcards
  option : word ≠ "-n".toList ∧ word ≠ "-e".toList

theorem Simple.leaves {word : Word} (h : Simple word) : sh.Leaves word :=
  leaves_plain h.nonempty (fun c hc => (h.plain c hc).1) fun c hc hmem => (h.plain c hmem).2 hc

theorem Simple.patch {word : Word} (h : Simple word) : Simple ("patch-".toList ++ mangle word) := by
  have hstart : "patch-".toList.Forall fun c => isBlank c = false ∧ c ∉ wildcards := by decide
  refine ⟨by simp, fun c hc => ?_, fun heq => ?_, fun heq => ?_⟩
  · rcases List.mem_append.1 hc with hc | hc
    · exact List.forall_iff_forall_mem.1 hstart c hc
    · rcases mem_mangle hc with rfl | hc
      · decide
      · exact h.plain c hc
  · cases heq
  · cases heq

theorem map_fields {a b : Word} (ha : Simple a) (hb : Simple b) : field 1 (a ++ '\t' :: b) = a ∧ field 2 (a ++ '\t' :: b) = b := by
  have hfields : fields (a ++ '\t' :: b) = [a, b] := by
    rw [fields_append rfl, fields_last (fun c hc => (ha.plain c hc).1) ha.nonempty,
      fields_last (fun c hc => (hb.plain c hc).1) hb.nonempty]
    rfl
  refine ⟨?_, ?_⟩
  · rw [field, hfields]
    rfl
  · rw [field, hfields]
    rfl

/-- The target of an old patch. -/
structure Target (target : Word) : Prop where
  word : Simple target
  path : Simple (without "./".toList target)

theorem stdTarget_eq {target : Word} (h : Target target) :
    stdTarget sh target = "patch-".toList ++ mangle (without "./".toList target) := by
  have hecho := echo_left (h.word.leaves : sh.Leaves target) h.word.option
  have hpath := echo_left (h.path.leaves : sh.Leaves (without "./".toList target)) h.path.option
  rw [stdTarget, h.word.leaves .port, List.headD_cons]
  change "patch-".toList ++ mangle (sh.echo (sh.words .port (stripPath sh .port ((sh.words .port
    (without "./".toList (sh.echo (sh.words .port target)))).headD [])))) = _
  rw [hecho, h.path.leaves .port, List.headD_cons, stripPath, hpath, hpath]

variable (sh) in
theorem validName_cases {patch target : Word} (hpatch : Simple patch) (h : Target target) :
    validName sh (sh.words .port patch ++ sh.words .port target ++ sh.words .port (stdTarget sh target)) = patch ∨
      validName sh (sh.words .port patch ++ sh.words .port target ++ sh.words .port (stdTarget sh target)) =
        stdTarget sh target := by
  have hstd : Simple (stdTarget sh target) := by
    rw [stdTarget_eq h]
    exact h.path.patch
  rw [hpatch.leaves .port, h.word.leaves .port, hstd.leaves .port]
  unfold validName
  dsimp only [List.singleton_append, List.cons_append, List.getD_cons_zero, List.getD_cons_succ]
  split_ifs
  · exact .inl (echo_left hpatch.leaves hpatch.option .port)
  · exact .inr (echo_left hstd.leaves hstd.option .port)

structure Plain (patches : Patches) (names : List Text) : Prop where
  names_simple : ∀ n ∈ names, Simple n ∧ '/' ∉ n
  targets_plain : ∀ n ∈ names, ∀ line ∈ linesOf (textOf patches n), isTarget line → Target (field 2 line)

variable (sh) in
theorem futureName_cases {patch target : Word} (hpatch : Simple patch) (h : Target target) (rest : List Word) :
    futureName sh patch [] (target :: rest) = patch ∨ futureName sh patch [] (target :: rest) = stdTarget sh target := by
  rw [futureName, if_neg (not_not_intro rfl)]
  have hvalid := validName_cases sh hpatch h
  cases rest with
  | nil => exact hvalid
  | cons next rest =>
    refine .inl (if_pos ?_)
    rcases hvalid with heq | heq
    · rw [heq]
      exact hpatch.nonempty
    · rw [heq, stdTarget_eq h]
      exact List.cons_ne_nil _ _

variable {patches : Patches} {names : List Text}

theorem Plain.old (h : Plain patches names) : ∀ patch ∈ oldPatchList sh names, patch ∈ names := by
  intro patch hpatch
  obtain ⟨n, hn, hmem⟩ := List.mem_flatMap.1 hpatch
  have hnames := (List.mem_filter.1 hn).1
  rw [(h.names_simple n hnames).1.leaves .port, List.mem_singleton] at hmem
  exact hmem ▸ hnames

theorem mem_targets (h : Plain patches names) {patch : Word} (hpatch : patch ∈ names) (target : Word) :
    target ∈ targets sh (textOf patches patch) ↔
      ∃ line ∈ linesOf (textOf patches patch), isTarget line ∧ field 2 line = target := by
  rw [targets, List.mem_flatMap]
  constructor
  · rintro ⟨line, hline, hmem⟩
    obtain ⟨hin, htarget⟩ := List.mem_filter.1 hline
    rw [(h.targets_plain patch hpatch line hin htarget).word.leaves .port, List.mem_singleton] at hmem
    exact ⟨line, hin, htarget, hmem.symm⟩
  · rintro ⟨line, hin, htarget, rfl⟩
    refine ⟨line, List.mem_filter.2 ⟨hin, htarget⟩, ?_⟩
    rw [(h.targets_plain patch hpatch line hin htarget).word.leaves .port]
    exact List.mem_singleton_self _

theorem target_plain (h : Plain patches names) {patch : Word} (hpatch : patch ∈ names) {target : Word}
    (htarget : target ∈ targets sh (textOf patches patch)) : Target target := by
  obtain ⟨line, hline, hmark, rfl⟩ := (mem_targets h hpatch target).1 htarget
  exact h.targets_plain patch hpatch line hline hmark

/-- The map says of each target of an old patch that its file goes on under its own name or under a standard one. -/
theorem mem_patchmap (h : Plain patches names) {line : Text × Text}
    (hline : line ∈ mapExistingPatches sh patches (oldPatchList sh names)) :
    ∃ patch ∈ oldPatchList sh names, ∃ target ∈ targets sh (textOf patches patch), line.2 = stdTarget sh target ∧
      (line.1 = patch ∨ ∃ first ∈ targets sh (textOf patches patch), line.1 = stdTarget sh first) := by
  obtain ⟨patch, hpatch, hmem⟩ := List.mem_flatMap.1 hline
  obtain ⟨target, htarget, rfl⟩ := List.mem_map.1 hmem
  have hname := h.old patch hpatch
  have hstd : ∀ word ∈ targets sh (textOf patches patch), Simple (stdTarget sh word) := by
    intro word hword
    have hplain := target_plain h hname hword
    rw [stdTarget_eq hplain]
    exact hplain.path.patch
  obtain ⟨first, rest, hfirst⟩ := List.exists_cons_of_ne_nil (List.ne_nil_of_mem htarget)
  have hmemFirst : first ∈ targets sh (textOf patches patch) := by
    rw [hfirst]
    exact List.mem_cons_self
  have hfuture := futureName_cases sh (h.names_simple patch hname).1 (target_plain h hname hmemFirst) rest
  have hsimple : Simple (futureName sh patch [] (targets sh (textOf patches patch))) := by
    rw [hfirst]
    rcases hfuture with heq | heq
    · rw [heq]
      exact (h.names_simple patch hname).1
    · rw [heq]
      exact hstd first hmemFirst
  obtain ⟨hname1, hname2⟩ := map_fields hsimple (hstd target htarget)
  refine ⟨patch, hpatch, target, htarget, hname2, ?_⟩
  dsimp only
  rw [hname1, hfirst]
  exact hfuture.imp_right fun heq => ⟨first, List.mem_cons_self, heq⟩

theorem patchmap_files (h : Plain patches names) :
    ∀ line ∈ mapExistingPatches sh patches (oldPatchList sh names), '/' ∉ line.1 := by
  intro line hline
  obtain ⟨patch, hpatch, target, htarget, -, hname | ⟨first, hfirst, hname⟩⟩ := mem_patchmap h hline
  · rw [hname]
    exact (h.names_simple patch (h.old patch hpatch)).2
  · rw [hname, stdTarget_eq (target_plain h (h.old patch hpatch) hfirst), List.mem_append, not_or]
    exact ⟨by decide, mangle_file _⟩

end Names

section Staged
variable (name content : Text → Text)

theorem lookup_foldl_addTo (order : List Text) (files : Files) (m : Text) :
    (order.foldl (fun staged n => addTo (name n) (content n) staged) files).lookup m =
      if ∃ n ∈ order, name n = m then
        some ((files.lookup m).getD [] ++ (order.filter (name · = m)).flatMap content)
      else files.lookup m := by
  induction order generalizing files with
  | nil => simp
  | cons n order ih =>
    rw [List.foldl_cons, ih, lookup_addTo]
    by_cases hn : name n = m
    · subst hn
      have hfilter : (n :: order).filter (name · = name n) = n :: order.filter (name · = name n) :=
        List.filter_cons_of_pos (by simp)
      have hhere : ∃ k ∈ n :: order, name k = name n := ⟨n, List.mem_cons_self, rfl⟩
      rw [if_pos rfl, if_pos hhere, hfilter, List.flatMap_cons, Option.getD_some]
      by_cases hlater : ∃ k ∈ order, name k = name n
      · rw [if_pos hlater, List.append_assoc]
      · have hnone : order.filter (name · = name n) = [] := by
          rw [List.filter_eq_nil_iff]
          exact fun k hk heq => hlater ⟨k, hk, by simpa using heq⟩
        rw [if_neg hlater, hnone, List.flatMap_nil, List.append_nil]
    · have hiff : (∃ k ∈ n :: order, name k = m) ↔ ∃ k ∈ order, name k = m := by
        rw [List.exists_mem_cons_iff, or_iff_right hn]
      have hfilter : (n :: order).filter (name · = m) = order.filter (name · = m) :=
        List.filter_cons_of_neg (by simpa using hn)
      rw [if_neg (Ne.symm hn), hfilter]
      exact if_congr hiff.symm rfl rfl

theorem mem_foldl_addTo (order : List Text) (files : Files) {file : Text × Text}
    (h : file ∈ order.foldl (fun staged n => addTo (name n) (content n) staged) files) :
    file ∈ files ∨ ∃ n ∈ order, content n <:+ file.2 := by
  induction order generalizing files with
  | nil => exact .inl h
  | cons n order ih =>
    rcases ih _ h with hfile | ⟨k, hk, htext⟩
    · exact (mem_addTo hfile).imp_right fun htext => ⟨n, List.mem_cons_self, htext⟩
    · exact .inr ⟨k, List.mem_cons_of_mem _ hk, htext⟩

variable {sh : Shell} {t : Tree} {order : List Text}

theorem mem_regenerated (hkept : ∀ q ∈ t.sources, Kept sh q) (n : Text) :
    (regeneratePatches sh t n).isSome ↔ ∃ q, t.Modified q ∧ n = "patch-".toList ++ mangle q := by
  have hmodified : ∀ {q}, q ∈ t.sources.filter (fun q => !t.same (q ++ ".orig".toList) q) ↔ t.Modified q := by
    intro q
    rw [List.mem_filter, Bool.not_eq_true']
    rfl
  rw [regeneratePatches_kept hkept]
  constructor
  · intro hsome
    by_contra hnone
    rw [KeyedWrites.writeAll_other fun q hq heq => hnone ⟨q, hmodified.1 hq, heq.symm⟩] at hsome
    cases hsome
  · rintro ⟨q, hq, rfl⟩
    obtain ⟨before, last, after, hsplit, hkey, hlast⟩ :=
      KeyedWrites.exists_last (fun q => "patch-".toList ++ mangle q) (hmodified.2 hq)
    rw [hsplit, ← hkey, KeyedWrites.writeAll_last hlast]
    rfl

def stagedName (patchmap : List (Text × Text)) (n : Text) : Text :=
  ((patchmap.find? fun line => line.2 = n).map Prod.fst).getD n

theorem stagePatches_plain (src : Sources) (hkept : ∀ q ∈ t.sources, Kept sh q)
    (horder : ∀ n ∈ order, ∃ q, t.Modified q ∧ n = "patch-".toList ++ mangle q)
    (hfiles : ∀ line ∈ src.patchmap, '/' ∉ line.1) :
    stagePatches sh src order =
      order.foldl (fun staged n => addTo (stagedName src.patchmap n) (stagedText sh src n) staged) [] := by
  have hstage : ∀ n ∈ order, ∀ staged, (sh.words .port ("./".toList ++ n)).foldl (stageFile sh src) staged =
      addTo (stagedName src.patchmap n) (stagedText sh src n) staged := by
    intro n hn staged
    obtain ⟨q, hq, rfl⟩ := horder n hn
    have hname := hkept q hq.1
    have hlisted : sh.words .port ("./".toList ++ ("patch-".toList ++ mangle q)) =
        ["./".toList ++ ("patch-".toList ++ mangle q)] := hname.listed .port
    have hfile : '/' ∉ stagedName src.patchmap ("patch-".toList ++ mangle q) := by
      unfold stagedName
      cases hfind : src.patchmap.find? fun line => line.2 = "patch-".toList ++ mangle q with
      | none =>
        rw [Option.map_none, Option.getD_none, List.mem_append, not_or]
        exact ⟨by decide, mangle_file q⟩
      | some line => exact hfiles line (List.mem_of_find?_eq_some hfind)
    rw [hlisted, List.foldl_cons, List.foldl_nil, stageFile, without_append, hname.name .port, List.headD_cons, patchName,
      hname.value]
    exact if_neg hfile
  rw [stagePatches, List.foldl_flatMap]
  exact List.foldl_ext _ _ _ fun staged n hn => hstage n hn staged

end Staged

section Install
variable {sh : Shell} (awk : Awk) {t : Tree} {names order : List Text} {p : Port}

/-- What the source tree, the old patches and their names are for a run without surprises. -/
structure Orderly (sh : Shell) (t : Tree) (names order : List Text) (p : Port) : Prop where
  listing : Listing sh p.patches names
  plain : Plain p.patches names
  kept : ∀ q ∈ t.sources, Kept sh q
  shapes : ∀ a b, t.Modified a → t.Modified b → shape a = shape b → a = b
  mem_order : ∀ n, n ∈ order ↔ (regeneratePatches sh t n).isSome

variable (h : Orderly sh t names order p)
include h

theorem Orderly.order_modified (n : Text) : n ∈ order ↔ ∃ q, t.Modified q ∧ n = "patch-".toList ++ mangle q := by
  rw [h.mem_order, mem_regenerated h.kept]

theorem Orderly.regenerated {q : Word} (hq : t.Modified q) :
    regeneratePatches sh t ("patch-".toList ++ mangle q) = some (t.diffOf q) :=
  regenerated_of_distinct h.kept (fun a b ha hb hab => h.shapes a b ha hb ((mangle_eq_iff a b).1 hab)) hq

theorem Orderly.staged_eq : stagedFiles sh awk t names order p =
    order.foldl (fun staged n => addTo (stagedName (sourcesOf sh awk t names p).patchmap n)
      (stagedText sh (sourcesOf sh awk t names p) n) staged) [] :=
  stagePatches_plain _ h.kept (fun n hn => (h.order_modified n).1 hn) (patchmap_files h.plain)

theorem Orderly.text_eq {q : Word} (hq : t.Modified q) :
    stagedText sh (sourcesOf sh awk t names p) ("patch-".toList ++ mangle q) =
      (((sourcesOf sh awk t names p).comments ("patch-".toList ++ mangle q)).map ofLines).getD [] ++ t.diffOf q := by
  rw [stagedText, (h.kept q hq.1).name .regenerated, List.flatMap_singleton, textOf]
  change _ ++ ((regeneratePatches sh t ("patch-".toList ++ mangle q)).getD []) = _
  rw [h.regenerated hq]
  rfl

theorem Orderly.staged_lookup (m : Text) : (stagedFiles sh awk t names order p).lookup m =
    if ∃ n ∈ order, stagedName (sourcesOf sh awk t names p).patchmap n = m then
      some ((order.filter (stagedName (sourcesOf sh awk t names p).patchmap · = m)).flatMap
        (stagedText sh (sourcesOf sh awk t names p)))
    else none := by
  rw [h.staged_eq, lookup_foldl_addTo]
  rfl

theorem Orderly.remaining_lookup (m : Text) (hnot : ¬ (m ∈ oldPatchList sh names ∧
    same p.patches (stagedFiles sh awk t names order p) m)) :
    (remaining sh awk t names order p).lookup m = (stagedFiles sh awk t names order p).lookup m :=
  (PatchRegeneration.remaining_lookup h.listing m).2 fun hsame => hnot ⟨(mem_oldPatchList h.listing m).2 hsame.1, hsame.2⟩

omit h in
theorem remaining_sub : remaining sh awk t names order p ⊆ stagedFiles sh awk t names order p :=
  (compare_rest p.patches (oldPatchList sh names) (stagedFiles sh awk t names order p, []) []).2.2

/-- A staged file comes into its place, unless the old patch there differs in its metadata at most. -/
theorem Orderly.placed (hdiffs : ∀ q, t.Modified q → t.diffOf q ≠ []) {m full : Text}
    (hlookup : (stagedFiles sh awk t names order p).lookup m = some full) :
    ∃ text, (run sh awk t names order p).patches m = some text ∧
      (text = full ∨ m ∈ oldPatchList sh names ∧ p.patches m = some text ∧ withoutMetadata text = withoutMetadata full) := by
  have hnonempty : ¬ ∃ file ∈ remaining sh awk t names order p, file.2 = [] := by
    rintro ⟨file, hfile, hempty⟩
    have hstaged := remaining_sub awk hfile
    rw [h.staged_eq] at hstaged
    rcases mem_foldl_addTo _ _ _ _ hstaged with hnone | ⟨n, hn, hsuffix⟩
    · cases hnone
    · obtain ⟨r, hr, rfl⟩ := (h.order_modified n).1 hn
      rw [hempty, h.text_eq awk hr, List.suffix_nil, List.append_eq_nil_iff] at hsuffix
      exact hdiffs r hr hsuffix.2
  have hpatches := (@run_patches sh awk t names order p m).1
  by_cases hsame : m ∈ oldPatchList sh names ∧ same p.patches (stagedFiles sh awk t names order p) m
  · obtain ⟨hold, hequal⟩ := hsame
    have hlisted := (mem_oldPatchList h.listing m).1 hold
    obtain ⟨text, htext⟩ := Option.isSome_iff_exists.1 hlisted.2
    have hmoved : ¬ Moved p (stagedFiles sh awk t names order p) m := by
      rintro ⟨-, hchanged⟩
      rw [same_unchanged hequal] at hchanged
      cases hchanged
    have hmeta := hequal
    rw [same, hlookup, Option.any_some, decide_eq_true_eq, textOf, htext, Option.getD_some] at hmeta
    refine ⟨text, ?_, .inr ⟨hold, htext, hmeta⟩⟩
    rw [hpatches, ((conserved h.listing _ m).2 hmoved).1, htext,
      (PatchRegeneration.remaining_lookup h.listing m).1 ⟨hlisted, hequal⟩, ite_self]
    rfl
  · have hrest := h.remaining_lookup awk m hsame
    rw [hlookup] at hrest
    have hne : remaining sh awk t names order p ≠ [] := List.ne_nil_of_mem (mem_of_lookup hrest)
    refine ⟨full, ?_, .inl rfl⟩
    rw [hpatches, if_neg (not_or.2 ⟨hne, hnonempty⟩), hrest]
    rfl

theorem Orderly.unstaged {m : Text} (hlookup : (stagedFiles sh awk t names order p).lookup m = none) :
    (run sh awk t names order p).patches m = p.patches m := by
  have hnone : ¬ Moved p (stagedFiles sh awk t names order p) m ∧
      ¬ (m ∈ oldPatchList sh names ∧ same p.patches (stagedFiles sh awk t names order p) m) := by
    refine ⟨fun hmoved => ?_, fun hsame => ?_⟩
    · have hchanged := hmoved.2
      rw [changed, hlookup] at hchanged
      cases hchanged
    · have hequal := hsame.2
      rw [same, hlookup] at hequal
      cases hequal
  rw [← h.remaining_lookup awk m hnone.2] at hlookup
  rw [(run_patches m).1, ((conserved h.listing _ m).2 hnone.1).1, hlookup, ite_self]
  rfl

theorem Orderly.complete (hdiffs : ∀ q, t.Modified q → t.diffOf q ≠ []) {q : Word} (hq : t.Modified q) :
    ∃ n text full, (run sh awk t names order p).patches n = some text ∧ withoutMetadata text = withoutMetadata full ∧
      t.diffOf q <:+: full := by
  have hin : "patch-".toList ++ mangle q ∈ order := (h.order_modified _).2 ⟨q, hq, rfl⟩
  generalize hm : stagedName (sourcesOf sh awk t names p).patchmap ("patch-".toList ++ mangle q) = m
  have hlookup := h.staged_lookup awk m
  rw [if_pos ⟨_, hin, hm⟩] at hlookup
  generalize hfull : (order.filter (stagedName (sourcesOf sh awk t names p).patchmap · = m)).flatMap
    (stagedText sh (sourcesOf sh awk t names p)) = full at hlookup
  have hdiff : t.diffOf q <:+: full := by
    have hmem : "patch-".toList ++ mangle q ∈ order.filter (stagedName (sourcesOf sh awk t names p).patchmap · = m) :=
      List.mem_filter.2 ⟨hin, decide_eq_true hm⟩
    obtain ⟨before, after, hsplit⟩ := List.append_of_mem hmem
    rw [← hfull, hsplit, List.flatMap_append, List.flatMap_cons, h.text_eq awk hq]
    exact ((List.suffix_append _ _).isInfix.trans (List.prefix_append _ _).isInfix).trans (List.suffix_append _ _).isInfix
  obtain ⟨text, htext, rfl | ⟨-, -, hmeta⟩⟩ := h.placed awk hdiffs hlookup
  · exact ⟨m, text, text, htext, rfl, hdiff⟩
  · exact ⟨m, text, full, htext, hmeta, hdiff⟩

end Install

theorem revised_kept : ∀ q ∈ revised.sources, Kept plainShell q := by
  intro q hq
  have hplain : ∀ r ∈ revised.sources, (∀ c ∈ wildcards, c ∉ r) ∧ r ≠ "-n".toList ∧ r ≠ "-e".toList :=
    List.forall_iff_forall_mem.1 ⟨List.forall_iff_forall_mem.1 (by decide), by decide⟩
  exact kept_of_plain hq (hplain q hq).1 (hplain q hq).2

theorem target_a : Target "a".toList :=
  ⟨⟨by decide, List.forall_iff_forall_mem.1 (by decide), by decide⟩, by decide, List.forall_iff_forall_mem.1 (by decide), by decide⟩

theorem revised_modified (q : Word) : revised.Modified q ↔ q = "a".toList :=
  ⟨fun h => List.mem_singleton.1 h.1, fun h => ⟨List.mem_singleton.2 h, rfl⟩⟩

theorem revised_orderly : Orderly plainShell revised ["patch-a".toList] ["patch-a".toList] outdated where
  listing := outdated_listing
  plain :=
    { names_simple := List.forall_iff_forall_mem.1
        ⟨⟨by decide, List.forall_iff_forall_mem.1 (by decide), by decide⟩, by decide⟩
      targets_plain := by
        intro n hn line hline htarget
        rw [List.mem_singleton.1 hn] at hline
        have hname : ∀ line ∈ linesOf outdatedPatch, isTarget line → field 2 line = "a".toList := by decide
        rw [hname line hline htarget]
        exact target_a }
  kept := revised_kept
  shapes a b ha hb _ := by rw [(revised_modified a).1 ha, (revised_modified b).1 hb]
  mem_order n := by
    rw [mem_regenerated revised_kept, List.mem_singleton]
    constructor
    · exact fun hn => ⟨_, (revised_modified _).2 rfl, hn⟩
    · rintro ⟨q, hq, rfl⟩
      rw [(revised_modified q).1 hq]
      rfl

end Mports.PatchRegeneration
