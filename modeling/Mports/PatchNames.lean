import Mports.KeyedWrites
import Mports.ShellText
import Mathlib.Data.List.Basic
import Mathlib.Data.List.Induction
import Mathlib.Logic.Function.Basic

set_option autoImplicit false

namespace Mports.PatchNames
open ShellText KeyedWrites

abbrev Word := List Char
abbrev Text := List Char

/-- The directories in which the shell expands words. -/
inductive Place where
  | source
  | port
  | regenerated

/-- `expand` is what becomes of a word with wildcards, `escapes` what `echo -e` prints, and
`unescape` what `awk -v` makes of a value. -/
structure Shell where
  expand : Place → Word → List Word
  escapes : Text → Text
  unescape : Text → Text
  expand_plain : ∀ place word, '*' ∉ word → '?' ∉ word → '[' ∉ word → '\\' ∉ word → expand place word = [word]
  unescape_plain : ∀ text, '\\' ∉ text → unescape text = text

section
variable (sh : Shell)

def Shell.words (place : Place) (text : Text) : List Word := (fields text).flatMap (sh.expand place)

def Shell.echo (words : List Word) : Text :=
  if words.head? = some "-n".toList then [' '].intercalate words.tail
  else if words.head? = some "-e".toList then sh.escapes ([' '].intercalate words.tail)
  else [' '].intercalate words

/-- `sed -e 's|_|&&|g; s|/|_|g'`. -/
def mangle (name : Text) : Text := name.flatMap fun c => if c = '_' then ['_', '_'] else if c = '/' then ['_'] else [c]

/-- `strip_path` where `STRIP_COMPONENTS` is 0. -/
def stripPath (place : Place) (rawName : Word) : Text := sh.echo (sh.words place rawName)

def stdPatchFilename (place : Place) (name : Word) : Text :=
  let sansCwd := without "./".toList (sh.echo (sh.words place name))
  let rawName := stripPath sh place ((sh.words place sansCwd).headD [])
  "patch-".toList ++ mangle (sh.echo (sh.words place rawName))

/-- `${text%end}`. -/
def withoutEnd (ending text : Text) : Text :=
  if ending.isSuffixOf text then text.take (text.length - ending.length) else text

/-- The files under `PATCH_WRKSRC` with a companion `.orig`, what `cmp` says of two files and
what `diff` prints of them. -/
structure Tree where
  sources : List Word
  same : Word → Word → Bool
  diff : Word → Word → Text
  nodup : sources.Nodup
  relative : ∀ p ∈ sources, ¬ "./".toList <+: p
  plain : ∀ p ∈ sources, p ≠ [] ∧ ∀ c ∈ p, isBlank c = false

abbrev Patches := Text → Option Text

/-- What `find` prints for a source. -/
def found (p : Word) : Word := "./".toList ++ p ++ ".orig".toList

def regenerate (t : Tree) (patches : Patches) (file : Word) : Patches :=
  let orig := without "./".toList file
  let new := withoutEnd ".orig".toList orig
  if t.same orig new then patches
  else Function.update patches (stdPatchFilename sh .source ((sh.words .source new).headD [])) (some (t.diff orig new))

def regeneratePatches (t : Tree) : Patches :=
  (t.sources.flatMap fun p => sh.words .source (found p)).foldl (regenerate sh t) fun _ => none

/-- The comments by the names of patches, and the map of the patches there are: each line has
the name of a file and that of a patch. -/
structure Legacy where
  comments : Text → Text
  map : List (Text × Text)
  map_files : ∀ line ∈ map, '/' ∉ line.1

def getPatchName (l : Legacy) (patch : Word) : Text :=
  let name := sh.unescape patch
  ((l.map.find? fun line => line.2 = name).map Prod.fst).getD name

/-- One patch is staged; a name with a slash is no file of the directory. -/
def stage (l : Legacy) (patches : Patches) (staged : Text → Text) (file : Word) : Text → Text :=
  let patch := without "./".toList file
  let name := getPatchName sh l ((sh.words .port patch).headD [])
  if '/' ∈ name then staged
  else Function.update staged name (staged name ++ l.comments patch ++
    (sh.words .regenerated patch).flatMap fun name => (patches name).getD [])

def stagePatches (l : Legacy) (patches : Patches) (order : List Text) : Text → Text :=
  (order.flatMap fun name => sh.words .port ("./".toList ++ name)).foldl (stage sh l patches) fun _ => []

def Tree.Modified (t : Tree) (p : Word) : Prop := p ∈ t.sources ∧ t.same (p ++ ".orig".toList) p = false

def Tree.diffOf (t : Tree) (p : Word) : Text := t.diff (p ++ ".orig".toList) p

structure Lossless (t : Tree) : Prop where
  names : ∀ p q, t.Modified p → t.Modified q → stdPatchFilename sh .source p = stdPatchFilename sh .source q → p = q
  regenerated : ∀ p, t.Modified p → regeneratePatches sh t (stdPatchFilename sh .source p) = some (t.diffOf p)
  staged : ∀ (l : Legacy) (order : List Text), (∀ name, name ∈ order ↔ (regeneratePatches sh t name).isSome) →
    ∀ p, t.Modified p → ∃ name, t.diffOf p <:+: stagePatches sh l (regeneratePatches sh t) order name

def Shell.Leaves (word : Word) : Prop := ∀ place, sh.words place word = [word]

/-- The words that the script makes of a path without quotes are left as they are. -/
structure Kept (p : Word) : Prop where
  path : sh.Leaves p
  option : p ≠ "-n".toList ∧ p ≠ "-e".toList
  found : sh.Leaves (found p)
  name : sh.Leaves ("patch-".toList ++ mangle p)
  listed : sh.Leaves ("./patch-".toList ++ mangle p)
  value : sh.unescape ("patch-".toList ++ mangle p) = "patch-".toList ++ mangle p

end

/-- The characters of a path other than `_` and `/`, and the runs of these two before and between
them, in which `_` weighs two and `/` one. -/
def shape : Text → ℕ × List (Char × ℕ)
  | [] => (0, [])
  | c :: rest =>
    if c = '_' then ((shape rest).1 + 2, (shape rest).2)
    else if c = '/' then ((shape rest).1 + 1, (shape rest).2)
    else (0, (c, (shape rest).1) :: (shape rest).2)

section Names

def underscores (n : ℕ) : Text := List.replicate n '_'

def render (s : ℕ × List (Char × ℕ)) : Text := underscores s.1 ++ s.2.flatMap fun run => run.1 :: underscores run.2

theorem mangle_cons (c : Char) (name : Text) :
    mangle (c :: name) = (if c = '_' then ['_', '_'] else if c = '/' then ['_'] else [c]) ++ mangle name := rfl

theorem underscores_succ (n : ℕ) : underscores (n + 1) = '_' :: underscores n := List.replicate_succ

theorem mangle_shape (name : Text) : mangle name = render (shape name) := by
  induction name with
  | nil => rfl
  | cons c name ih =>
    rw [mangle_cons, ih, shape]
    split_ifs
    · simp [render, underscores_succ]
    · simp [render, underscores_succ]
    · simp [render, underscores]

theorem shape_other (name : Text) : ∀ run ∈ (shape name).2, run.1 ≠ '_' := by
  induction name with
  | nil => exact nofun
  | cons c name ih =>
    rw [shape]
    split_ifs with hmark hslash
    · exact ih
    · exact ih
    · exact List.forall_mem_cons.2 ⟨hmark, ih⟩

theorem run_unique {m n : ℕ} {x y : Text} (hx : x.head? ≠ some '_') (hy : y.head? ≠ some '_')
    (h : underscores m ++ x = underscores n ++ y) : m = n ∧ x = y := by
  induction m generalizing n with
  | zero =>
    cases n with
    | zero => exact ⟨rfl, h⟩
    | succ n =>
      rw [underscores_succ] at h
      change x = '_' :: (underscores n ++ y) at h
      exact absurd (by rw [h]; rfl) hx
  | succ m ih =>
    cases n with
    | zero =>
      rw [underscores_succ] at h
      change '_' :: (underscores m ++ x) = y at h
      exact absurd (by rw [← h]; rfl) hy
    | succ n =>
      rw [underscores_succ, underscores_succ] at h
      obtain ⟨hrun, hrest⟩ := ih (List.cons.inj h).2
      exact ⟨congrArg (· + 1) hrun, hrest⟩

theorem render_injective {a b : List (Char × ℕ)} {m n : ℕ} (ha : ∀ run ∈ a, run.1 ≠ '_') (hb : ∀ run ∈ b, run.1 ≠ '_')
    (h : render (m, a) = render (n, b)) : m = n ∧ a = b := by
  have hhead : ∀ {a : List (Char × ℕ)}, (∀ run ∈ a, run.1 ≠ '_') →
      (a.flatMap fun run => run.1 :: underscores run.2).head? ≠ some '_' := by
    intro a ha
    cases a with
    | nil => exact nofun
    | cons run a => exact fun hrun => ha run List.mem_cons_self (Option.some.inj hrun)
  induction a generalizing b m n with
  | nil =>
    obtain ⟨rfl, hrest⟩ := run_unique (hhead ha) (hhead hb) h
    cases b with
    | nil => exact ⟨rfl, rfl⟩
    | cons run b => cases hrest
  | cons run a ih =>
    obtain ⟨rfl, hrest⟩ := run_unique (hhead ha) (hhead hb) h
    cases b with
    | nil => cases hrest
    | cons run' b =>
      obtain ⟨hchar, htail⟩ := List.cons.inj hrest
      obtain ⟨hweight, hruns⟩ := ih (fun r hr => ha r (List.mem_cons_of_mem _ hr))
        (fun r hr => hb r (List.mem_cons_of_mem _ hr)) htail
      exact ⟨rfl, by rw [Prod.ext hchar hweight, hruns]⟩

theorem mangle_eq_iff (p q : Text) : mangle p = mangle q ↔ shape p = shape q := by
  rw [mangle_shape, mangle_shape]
  constructor
  · intro h
    obtain ⟨hrun, hrest⟩ := render_injective (shape_other p) (shape_other q) h
    exact Prod.ext hrun hrest
  · exact congrArg render

theorem mangle_file (name : Text) : '/' ∉ mangle name := by
  intro hmem
  obtain ⟨c, -, hc⟩ := List.mem_flatMap.1 hmem
  split_ifs at hc with hmark hslash
  · revert hc
    decide
  · revert hc
    decide
  · exact hslash (List.mem_singleton.1 hc).symm

end Names

section Patches
variable {sh : Shell} {t : Tree} {p : Word}

theorem echo_left (h : sh.Leaves p) (hoption : p ≠ "-n".toList ∧ p ≠ "-e".toList) (place : Place) :
    sh.echo (sh.words place p) = p := by
  have hn : [p].head? ≠ some "-n".toList := fun heq => hoption.1 (Option.some.inj heq)
  have he : [p].head? ≠ some "-e".toList := fun heq => hoption.2 (Option.some.inj heq)
  rw [h place, Shell.echo, if_neg hn, if_neg he]
  simp

theorem stdPatchFilename_kept (h : Kept sh p) (hrelative : ¬ "./".toList <+: p) :
    stdPatchFilename sh .source p = "patch-".toList ++ mangle p := by
  have hdot : without "./".toList p = p := if_neg hrelative
  have hecho := fun place => echo_left h.path h.option place
  change "patch-".toList ++ mangle (sh.echo (sh.words .source (stripPath sh .source ((sh.words .source
    (without "./".toList (sh.echo (sh.words .source p)))).headD [])))) = _
  rw [hecho, hdot, h.path, List.headD_cons, stripPath, hecho, hecho]

theorem withoutEnd_append (text ending : Text) : withoutEnd ending (text ++ ending) = text := by
  rw [withoutEnd, if_pos (List.isSuffixOf_iff_suffix.2 (List.suffix_append text ending))]
  simp

theorem regenerate_kept (h : Kept sh p) (hrelative : ¬ "./".toList <+: p) (patches : Patches) :
    regenerate sh t patches (found p) = if t.same (p ++ ".orig".toList) p then patches
      else Function.update patches ("patch-".toList ++ mangle p) (some (t.diffOf p)) := by
  have horig : without "./".toList (found p) = p ++ ".orig".toList := by
    rw [found, List.append_assoc, without_append]
  rw [regenerate, horig, withoutEnd_append, h.path, List.headD_cons, stdPatchFilename_kept h hrelative]
  rfl

theorem regeneratePatches_kept (h : ∀ p ∈ t.sources, Kept sh p) : regeneratePatches sh t =
    writeAll (fun p => "patch-".toList ++ mangle p) t.diffOf (fun _ => none)
      (t.sources.filter fun p => !t.same (p ++ ".orig".toList) p) := by
  have hwords : ∀ {sources : List Word} (patches : Patches), (∀ p ∈ sources, Kept sh p ∧ ¬ "./".toList <+: p) →
      (sources.flatMap fun p => sh.words .source (found p)).foldl (regenerate sh t) patches =
        writeAll (fun p => "patch-".toList ++ mangle p) t.diffOf patches
          (sources.filter fun p => !t.same (p ++ ".orig".toList) p) := by
    intro sources patches hsources
    induction sources generalizing patches with
    | nil => rfl
    | cons p sources ih =>
      obtain ⟨hkept, hrelative⟩ := hsources p List.mem_cons_self
      have hrest := fun patches => ih patches fun q hq => hsources q (List.mem_cons_of_mem _ hq)
      rw [List.flatMap_cons, hkept.found, List.singleton_append, List.foldl_cons, regenerate_kept hkept hrelative, hrest]
      by_cases hsame : t.same (p ++ ".orig".toList) p
      · rw [if_pos hsame, List.filter_cons_of_neg (by rw [hsame]; exact Bool.false_ne_true)]
      · rw [if_neg hsame, List.filter_cons_of_pos (by rw [Bool.eq_false_iff.2 hsame]; rfl)]
        rfl
  exact hwords _ fun p hp => ⟨h p hp, t.relative p hp⟩

theorem regenerated_of_distinct (h : ∀ p ∈ t.sources, Kept sh p)
    (hnames : ∀ p q, t.Modified p → t.Modified q → mangle p = mangle q → p = q) (hp : t.Modified p) :
    regeneratePatches sh t ("patch-".toList ++ mangle p) = some (t.diffOf p) := by
  have hmodified : ∀ {q}, q ∈ t.sources.filter (fun q => !t.same (q ++ ".orig".toList) q) ↔ t.Modified q := by
    intro q
    rw [List.mem_filter, Bool.not_eq_true']
    rfl
  rw [regeneratePatches_kept h]
  obtain ⟨before, q, after, hsplit, hname, hlast⟩ :=
    exists_last (fun q => "patch-".toList ++ mangle q) (hmodified.2 hp)
  have hq : t.Modified q := hmodified.1 (by rw [hsplit]; simp)
  obtain rfl := hnames q p hq hp (List.append_cancel_left hname)
  rw [hsplit]
  exact writeAll_last hlast

theorem stage_keeps {l : Legacy} {patches : Patches} {text name : Text} {files : List Word} {staged : Text → Text}
    (h : text <:+: staged name) : text <:+: files.foldl (stage sh l patches) staged name := by
  induction files generalizing staged with
  | nil => exact h
  | cons file files ih =>
    refine ih ?_
    unfold stage
    split_ifs
    · exact h
    · rw [Function.update_apply]
      split_ifs with hname
      · rw [← hname, List.append_assoc]
        exact h.trans (List.prefix_append _ _).isInfix
      · exact h

theorem getPatchName_file (l : Legacy) {patch : Word} (h : '/' ∉ sh.unescape patch) :
    '/' ∉ getPatchName sh l patch := by
  unfold getPatchName
  dsimp only
  cases hfind : l.map.find? fun line => line.2 = sh.unescape patch with
  | none => exact h
  | some line => exact l.map_files line (List.mem_of_find?_eq_some hfind)

theorem staged_of_found (l : Legacy) {patches : Patches} {order : List Text} (hp : Kept sh p)
    (horder : "patch-".toList ++ mangle p ∈ order) {text : Text}
    (htext : patches ("patch-".toList ++ mangle p) = some text) :
    ∃ name, text <:+: stagePatches sh l patches order name := by
  obtain ⟨before, after, hsplit⟩ := List.append_of_mem horder
  have hfile : '/' ∉ "patch-".toList ++ mangle p := by
    rw [List.mem_append, not_or]
    exact ⟨by decide, mangle_file p⟩
  have hname : '/' ∉ getPatchName sh l ("patch-".toList ++ mangle p) := getPatchName_file l (by rwa [hp.value])
  refine ⟨getPatchName sh l ("patch-".toList ++ mangle p), ?_⟩
  have hlisted : sh.words .port ("./".toList ++ ("patch-".toList ++ mangle p)) =
      ["./".toList ++ ("patch-".toList ++ mangle p)] := hp.listed .port
  rw [stagePatches, hsplit, List.flatMap_append, List.flatMap_cons, hlisted, List.foldl_append, List.singleton_append,
    List.foldl_cons]
  have hfirst := hp.name .port
  have hread := hp.name .regenerated
  generalize "patch-".toList ++ mangle p = patch at *
  refine stage_keeps ?_
  rw [stage, without_append, hfirst, List.headD_cons, if_neg hname, Function.update_self, hread]
  simp only [List.flatMap_cons, List.flatMap_nil, List.append_nil, htext, Option.getD_some]
  exact (List.suffix_append _ _).isInfix

/-- Nothing is lost just where no two sources have paths of one shape. -/
theorem lossless_iff_distinct (h : ∀ p ∈ t.sources, Kept sh p) : Lossless sh t ↔
    ∀ p q, t.Modified p → t.Modified q → shape p = shape q → p = q := by
  have hstd : ∀ p, t.Modified p → stdPatchFilename sh .source p = "patch-".toList ++ mangle p := fun p hp =>
    stdPatchFilename_kept (h p hp.1) (t.relative p hp.1)
  constructor
  · intro hlossless p q hp hq hshape
    refine hlossless.names p q hp hq ?_
    rw [hstd p hp, hstd q hq, (mangle_eq_iff p q).2 hshape]
  · intro hshapes
    have hnames : ∀ p q, t.Modified p → t.Modified q → mangle p = mangle q → p = q := fun p q hp hq hname =>
      hshapes p q hp hq ((mangle_eq_iff p q).1 hname)
    have hregenerated := fun p (hp : t.Modified p) => regenerated_of_distinct h hnames hp
    refine ⟨fun p q hp hq hname => ?_, fun p hp => ?_, fun l order horder p hp => ?_⟩
    · rw [hstd p hp, hstd q hq] at hname
      exact hnames p q hp hq (List.append_cancel_left hname)
    · rw [hstd p hp]
      exact hregenerated p hp
    · refine staged_of_found l (h p hp.1) ((horder _).2 ?_) (hregenerated p hp)
      rw [hregenerated p hp]
      rfl

/-- The characters for which the shell looks for files, and the one with which awk has escapes. -/
def wildcards : List Char := ['*', '?', '[', '\\']

theorem leaves_plain {word : Word} (hne : word ≠ []) (hword : ∀ c ∈ word, isBlank c = false)
    (hplain : ∀ c ∈ wildcards, c ∉ word) : sh.Leaves word := by
  intro place
  rw [Shell.words, fields_last hword hne, List.flatMap_cons, List.flatMap_nil, List.append_nil]
  exact sh.expand_plain place word (hplain _ (by decide)) (hplain _ (by decide)) (hplain _ (by decide))
    (hplain _ (by decide))

theorem mem_mangle {c : Char} (h : c ∈ mangle p) : c = '_' ∨ c ∈ p := by
  obtain ⟨d, hd, hc⟩ := List.mem_flatMap.1 h
  split_ifs at hc
  · simp only [List.mem_cons, List.not_mem_nil, or_false, or_self] at hc
    exact .inl hc
  · exact .inl (List.mem_singleton.1 hc)
  · exact .inr (List.mem_singleton.1 hc ▸ hd)

theorem kept_of_plain (hp : p ∈ t.sources) (hplain : ∀ c ∈ wildcards, c ∉ p)
    (hoption : p ≠ "-n".toList ∧ p ≠ "-e".toList) : Kept sh p := by
  obtain ⟨hne, hword⟩ := t.plain p hp
  have hblank : ∀ (start ending : Text), (start ++ ending).Forall (fun c => isBlank c = false ∧ c ∉ wildcards) →
      ∀ c ∈ start ++ p ++ ending, isBlank c = false ∧ c ∉ wildcards := by
    intro start ending hends c hc
    have hall := List.forall_iff_forall_mem.1 hends
    simp only [List.mem_append] at hc
    obtain (hc | hc) | hc := hc
    · exact hall c (List.mem_append_left _ hc)
    · exact ⟨hword c hc, fun hwild => hplain c hwild hc⟩
    · exact hall c (List.mem_append_right _ hc)
  have hmangled : ∀ start : Text, start.Forall (fun c => isBlank c = false ∧ c ∉ wildcards) →
      ∀ c ∈ start ++ mangle p, isBlank c = false ∧ c ∉ wildcards := by
    intro start hstart c hc
    rw [List.mem_append] at hc
    obtain hc | hc := hc
    · exact List.forall_iff_forall_mem.1 hstart c hc
    · obtain rfl | hc := mem_mangle hc
      · decide
      · exact ⟨hword c hc, fun hwild => hplain c hwild hc⟩
  have hfound := hblank "./".toList ".orig".toList (by decide)
  have hname := hmangled "patch-".toList (by decide)
  have hlisted := hmangled "./patch-".toList (by decide)
  refine ⟨leaves_plain hne hword hplain, hoption, ?_, ?_, ?_, ?_⟩
  · exact leaves_plain (by simp [found]) (fun c hc => (hfound c hc).1) fun c hc hmem => (hfound c hmem).2 hc
  · exact leaves_plain (by simp) (fun c hc => (hname c hc).1) fun c hc hmem => (hname c hmem).2 hc
  · exact leaves_plain (by simp) (fun c hc => (hlisted c hc).1) fun c hc hmem => (hlisted c hmem).2 hc
  · exact sh.unescape_plain _ fun hmem => (hname _ hmem).2 (by decide)

def plainShell : Shell where
  expand _ word := [word]
  escapes := id
  unescape := id
  expand_plain _ _ _ _ _ _ := rfl
  unescape_plain _ _ := rfl

def crossed : Tree where
  sources := ["a_/b".toList, "a/_b".toList]
  same _ _ := false
  diff _ new := new
  nodup := by decide
  relative := List.forall_iff_forall_mem.1 (by decide)
  plain := List.forall_iff_forall_mem.1
    ⟨⟨by decide, List.forall_iff_forall_mem.1 (by decide)⟩, by decide, List.forall_iff_forall_mem.1 (by decide)⟩

theorem crossed_collides : ¬ Lossless plainShell crossed := by
  intro h
  have heq := h.names "a_/b".toList "a/_b".toList ⟨by decide, rfl⟩ ⟨by decide, rfl⟩ (by decide +kernel)
  exact absurd heq (by decide)

def apart : Tree where
  sources := ["a_b".toList, "a/b".toList]
  same _ _ := false
  diff _ new := new
  nodup := by decide
  relative := List.forall_iff_forall_mem.1 (by decide)
  plain := List.forall_iff_forall_mem.1
    ⟨⟨by decide, List.forall_iff_forall_mem.1 (by decide)⟩, by decide, List.forall_iff_forall_mem.1 (by decide)⟩

theorem apart_lossless : Lossless plainShell apart := by
  refine (lossless_iff_distinct fun p hp => ?_).2 fun p q hp hq hshape => ?_
  · have hplain : ∀ r ∈ apart.sources, (∀ c ∈ wildcards, c ∉ r) ∧ r ≠ "-n".toList ∧ r ≠ "-e".toList :=
      List.forall_iff_forall_mem.1
        ⟨⟨List.forall_iff_forall_mem.1 (by decide), by decide⟩, List.forall_iff_forall_mem.1 (by decide), by decide⟩
    exact kept_of_plain hp (hplain p hp).1 (hplain p hp).2
  · have hp' := hp.1
    have hq' := hq.1
    simp only [apart, List.mem_cons, List.not_mem_nil, or_false] at hp' hq'
    obtain rfl | rfl := hp' <;> obtain rfl | rfl := hq'
    · rfl
    · exact absurd hshape (by decide)
    · exact absurd hshape (by decide)
    · rfl

end Patches

end Mports.PatchNames
