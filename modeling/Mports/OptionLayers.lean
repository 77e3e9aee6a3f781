import Mports.OptionImplies
import Mports.PerlText
import Mathlib.Data.Char
import Mathlib.Data.List.Dedup
import Mathlib.Data.List.Lex

set_option autoImplicit false

namespace Mports.OptionLayers
open MakeWords OptionImplies Relation

inductive Kind where
  | single | radio | multi | group
  deriving DecidableEq

def kinds : List Kind := [.single, .radio, .multi, .group]

/-- What the port says of its options; the fields that end in `Arch`, `Opsys` and `Osrel` are
those for the system at hand, and `initial` is what `PORT_OPTIONS` holds before. -/
structure Declaration where
  define : List Word
  defineArch : List Word
  default : List Word
  defaultArch : Option (List Word)
  defaultOtherArchs : List Word
  groups : Kind → List Word
  members : Kind → Word → List Word
  exclude : List Word
  excludeArch : List Word
  excludeOpsys : List Word
  excludeOsrel : List Word
  slave : List Word
  implies : Word → List Word
  initial : List Word

/-- What the user says; `name` is for the variables under `OPTIONS_NAME`, `withOpts` and `withoutOpts`
are `WITH` and `WITHOUT`. -/
structure Settings where
  magus : Bool
  set : List Word
  unset : List Word
  nameSet : List Word
  nameUnset : List Word
  fileSet : List Word
  fileUnset : List Word
  setForce : List Word
  unsetForce : List Word
  nameSetForce : List Word
  nameUnsetForce : List Word
  withOpts : List Word
  withoutOpts : List Word

def unsigned (word : Word) : Word := if word.head? = some '+' ∨ word.head? = some '-' then word.drop 1 else word

def isZero (word : Word) : Bool :=
  let digits := unsigned word
  let rest := digits.dropWhile (· = '0')
  let exponent := unsigned (rest.drop 1)
  digits.head? = some '0' && (rest = [] ||
    ((rest.head?.any fun c => c = 'e' || c = 'E') && exponent ≠ [] && exponent.all Char.isDigit) ||
    ((rest.head?.any fun c => c = 'x' || c = 'X') && rest.drop 1 ≠ [] && (rest.drop 1).all (· = '0')))

/-- `.if ${words:Mpattern}`. -/
def truthy (pattern : Word) (words : List Word) : Bool :=
  match words.filter (strMatch pattern) with
  | [] => false
  | [word] => !isZero word
  | _ => true

/-- `:O:u`. -/
def sortUnique (words : List Word) : List Word := (words.mergeSort (· ≤ ·)).dedup

def defined (d : Declaration) : List Word :=
  d.defineArch.foldl (fun define opt => if hasMatch opt define then define else define ++ [opt]) d.define

def defaults (d : Declaration) : List Word := d.default ++ d.defaultArch.getD d.defaultOtherArchs

/-- What the variables `OPTIONS_EXCLUDE*` list. -/
def listed (d : Declaration) : List Word := d.excludeArch ++ d.exclude ++ d.excludeOpsys ++ d.excludeOsrel

def excludeWith (opt : Word) (all : List Word) (implied : Word) : List Word :=
  if truthy implied all then all ++ [opt] else all

def propagate (implies : Word → List Word) (all : List Word) (opt : Word) : List Word :=
  if truthy opt all then all else (implies opt).foldl (excludeWith opt) all

def allExclude (d : Declaration) : List Word :=
  (sortUnique (defined d)).foldl (propagate d.implies)
    (d.excludeArch ++ d.exclude ++ d.slave ++ d.excludeOpsys ++ d.excludeOsrel)

structure Remaining where
  default : List Word
  define : List Word
  members : Kind → Word → List Word

def removeOption (d : Declaration) (r : Remaining) (opt : Word) : Remaining where
  default := excluding opt r.default
  define := excluding opt r.define
  members kind m := if m ∈ d.groups kind then excluding opt (r.members kind m) else r.members kind m

def remaining (d : Declaration) : Remaining :=
  (sortUnique (allExclude d)).foldl (removeOption d) ⟨defaults d, defined d, d.members⟩

def remainingGroups (d : Declaration) (kind : Kind) : List Word :=
  (d.groups kind).foldl (fun groups m => if ((remaining d).members kind m).isEmpty then excluding m groups else groups)
    (d.groups kind)

/-- `COMPLETE_OPTIONS_LIST`. -/
def complete (d : Declaration) : List Word :=
  sortUnique (remaining d).define ++
    kinds.flatMap fun kind => (remainingGroups d kind).flatMap ((remaining d).members kind)

/-- `PORT_OPTIONS` and `NEW_OPTIONS`. -/
structure Layer where
  port : List Word
  new : List Word

def setOptions (complete opts : List Word) (l : Layer) : Layer :=
  opts.foldl (fun l opt => if hasMatch opt complete then ⟨l.port ++ [opt], excluding opt l.new⟩ else l) l

def unsetOptions (opts : List Word) (l : Layer) : Layer :=
  opts.foldl (fun l opt => ⟨excluding opt l.port, excluding opt l.new⟩) l

def alwaysOn : List Word := ["DOCS".toList, "NLS".toList, "EXAMPLES".toList, "IPV6".toList]

def declaredOptions (d : Declaration) : List Word :=
  let port := d.initial ++ alwaysOn.filter fun opt => truthy opt (complete d)
  (sortUnique (allExclude d)).foldl (fun port opt => excluding opt port) port ++ sortUnique (remaining d).default

def settled (d : Declaration) (s : Settings) : Layer :=
  let set := setOptions (complete d)
  let l : Layer := ⟨declaredOptions d, complete d⟩
  let l := if s.magus then l
    else unsetOptions s.nameUnset (set s.nameSet (unsetOptions s.unset (set s.set l)))
  let l := unsetOptions s.fileUnset (set s.fileSet l)
  let l := unsetOptions s.unsetForce (set s.setForce l)
  let l := unsetOptions s.nameUnsetForce (set s.nameSetForce l)
  unsetOptions s.withoutOpts (set s.withOpts l)

/-- `PORT_OPTIONS` in the end. -/
def portOptions (d : Declaration) (s : Settings) : List Word :=
  sortUnique (resolve d.implies (complete d) (settled d s).port ++ d.slave)

/-- A name of an option: no dot, no wildcard and no number that is zero. -/
def Name (word : Word) : Prop := OptionName word ∧ isZero word = false

structure Port extends Declaration where
  define_names : ∀ x ∈ define, Name x
  defineArch_names : ∀ x ∈ defineArch, Name x
  groups_names : ∀ kind, ∀ m ∈ groups kind, Name m
  members_names : ∀ kind, ∀ m ∈ groups kind, ∀ x ∈ members kind m, Name x
  exclude_names : ∀ x ∈ excludeArch ++ exclude ++ slave ++ excludeOpsys ++ excludeOsrel, Name x
  implies_names : ∀ x, ∀ y ∈ implies x, Name y

/-- No group member that is not in `OPTIONS_DEFINE` and not excluded implies what is excluded. -/
def Sealed (d : Declaration) : Prop :=
  ∀ kind, ∀ m ∈ d.groups kind, ∀ x ∈ d.members kind m, x ∉ defined d → x ∉ listed d → x ∉ d.slave →
    ∀ c ∈ d.implies x, c ∈ listed d → c ∈ d.slave

@[simp] theorem mem_sortUnique (words : List Word) (x : Word) : x ∈ sortUnique words ↔ x ∈ words := by
  rw [sortUnique, List.mem_dedup, List.mem_mergeSort]

theorem truthy_name {x : Word} (h : Name x) (words : List Word) : truthy x words = true ↔ x ∈ words := by
  have hfilter : ∀ w ∈ words.filter (strMatch x), w = x := fun w hw =>
    (strMatch_plain h.1.2 w).1 (List.mem_filter.1 hw).2
  have hmem : x ∈ words ↔ x ∈ words.filter (strMatch x) := by
    simp [List.mem_filter, strMatch_plain h.1.2]
  rw [hmem]
  unfold truthy
  generalize words.filter (strMatch x) = found at hfilter
  match found with
  | [] => simp
  | [word] => simp [hfilter word List.mem_cons_self, h.2]
  | word :: _ :: _ => simp [hfilter word List.mem_cons_self]

theorem mem_defined (d : Declaration) (h : ∀ x ∈ d.defineArch, Name x) (x : Word) :
    x ∈ defined d ↔ x ∈ d.define ∨ x ∈ d.defineArch :=
  mem_foldl_addMissing d.defineArch (fun y hy => (h y hy).1.2) d.define x

theorem foldl_excludeWith_keeps (opt : Word) (implied all : List Word) : ∀ x ∈ all, x ∈ implied.foldl (excludeWith opt) all := by
  induction implied generalizing all with
  | nil => exact fun x hx => hx
  | cons y implied ih =>
    intro x hx
    refine ih _ x ?_
    unfold excludeWith
    split_ifs
    · exact List.mem_append_left _ hx
    · exact hx

theorem foldl_excludeWith_adds (opt : Word) (implied all : List Word) :
    ∀ x ∈ implied.foldl (excludeWith opt) all, x ∈ all ∨ x = opt := by
  induction implied generalizing all with
  | nil => exact fun x hx => .inl hx
  | cons y implied ih =>
    intro x hx
    refine (ih _ x hx).elim (fun hx => ?_) .inr
    unfold excludeWith at hx
    split_ifs at hx
    · exact (List.mem_append.1 hx).imp_right List.mem_singleton.1
    · exact .inl hx

theorem foldl_excludeWith_implied (opt : Word) {c : Word} (hc : Name c) (implied all : List Word) (himplied : c ∈ implied)
    (hall : c ∈ all) : opt ∈ implied.foldl (excludeWith opt) all := by
  induction implied generalizing all with
  | nil => cases himplied
  | cons y implied ih =>
    rw [List.foldl_cons]
    rcases List.mem_cons.1 himplied with rfl | himplied
    · refine foldl_excludeWith_keeps opt implied _ opt ?_
      rw [excludeWith, if_pos ((truthy_name hc all).2 hall)]
      simp
    · exact ih _ himplied (foldl_excludeWith_keeps opt [y] all c hall)

section
variable {implies : Word → List Word}

theorem propagate_keeps (all : List Word) (opt : Word) : ∀ x ∈ all, x ∈ propagate implies all opt := by
  unfold propagate
  split_ifs
  · exact fun x hx => hx
  · exact foldl_excludeWith_keeps opt _ all

theorem propagate_adds (all : List Word) (opt : Word) : ∀ x ∈ propagate implies all opt, x ∈ all ∨ x = opt := by
  unfold propagate
  split_ifs
  · exact fun x hx => .inl hx
  · exact foldl_excludeWith_adds opt _ all

theorem propagate_implied {all : List Word} {opt c : Word} (hopt : Name opt) (hc : Name c) (himplies : c ∈ implies opt)
    (hall : c ∈ all) : opt ∈ propagate implies all opt := by
  unfold propagate
  split_ifs with hin
  · exact (truthy_name hopt all).1 hin
  · exact foldl_excludeWith_implied opt hc _ all himplies hall

theorem foldl_propagate_keeps (define all : List Word) : ∀ x ∈ all, x ∈ define.foldl (propagate implies) all := by
  induction define generalizing all with
  | nil => exact fun x hx => hx
  | cons opt define ih => exact fun x hx => ih _ x (propagate_keeps all opt x hx)

theorem foldl_propagate_adds (define all : List Word) :
    ∀ x ∈ define.foldl (propagate implies) all, x ∈ all ∨ x ∈ define := by
  induction define generalizing all with
  | nil => exact fun x hx => .inl hx
  | cons opt define ih =>
    intro x hx
    rcases ih _ x hx with hx | hx
    · rcases propagate_adds all opt x hx with hx | rfl
      · exact .inl hx
      · exact .inr List.mem_cons_self
    · exact .inr (List.mem_cons_of_mem _ hx)

theorem foldl_propagate_implied (define : List Word) {all : List Word} {opt c : Word} (hmem : opt ∈ define) (hopt : Name opt)
    (hc : Name c) (himplies : c ∈ implies opt) (hall : c ∈ all) : opt ∈ define.foldl (propagate implies) all := by
  induction define generalizing all with
  | nil => cases hmem
  | cons x define ih =>
    rw [List.foldl_cons]
    rcases List.mem_cons.1 hmem with rfl | hmem
    · exact foldl_propagate_keeps define _ opt (propagate_implied hopt hc himplies hall)
    · exact ih hmem (propagate_keeps all x c hall)

end

theorem mem_foldl_excluding (patterns : List Word) (h : ∀ y ∈ patterns, Plain y) (words : List Word) (x : Word) :
    x ∈ patterns.foldl (fun words opt => excluding opt words) words ↔ x ∈ words ∧ x ∉ patterns := by
  induction patterns generalizing words with
  | nil => simp
  | cons y patterns ih =>
    rw [List.foldl_cons, ih fun z hz => h z (List.mem_cons_of_mem _ hz), mem_excluding_plain (h y List.mem_cons_self),
      List.mem_cons, not_or, and_assoc]

section
variable (d : Declaration) (opts : List Word) (r : Remaining)

theorem foldl_removeOption_define :
    (opts.foldl (removeOption d) r).define = opts.foldl (fun words opt => excluding opt words) r.define := by
  induction opts generalizing r with
  | nil => rfl
  | cons opt opts ih => rw [List.foldl_cons, ih, List.foldl_cons, removeOption]

theorem foldl_removeOption_default :
    (opts.foldl (removeOption d) r).default = opts.foldl (fun words opt => excluding opt words) r.default := by
  induction opts generalizing r with
  | nil => rfl
  | cons opt opts ih => rw [List.foldl_cons, ih, List.foldl_cons, removeOption]

theorem foldl_removeOption_members {kind : Kind} {m : Word} (hm : m ∈ d.groups kind) :
    (opts.foldl (removeOption d) r).members kind m =
      opts.foldl (fun words opt => excluding opt words) (r.members kind m) := by
  induction opts generalizing r with
  | nil => rfl
  | cons opt opts ih =>
    rw [List.foldl_cons, ih, List.foldl_cons, removeOption]
    dsimp only
    rw [if_pos hm]

end

section
variable (p : Port)

theorem defined_names : ∀ x ∈ defined p.toDeclaration, Name x := by
  intro x hx
  rw [mem_defined p.toDeclaration p.defineArch_names] at hx
  exact hx.elim (p.define_names x) (p.defineArch_names x)

theorem allExclude_names : ∀ x ∈ allExclude p.toDeclaration, Name x := by
  intro x hx
  rcases foldl_propagate_adds _ _ x hx with hx | hx
  · exact p.exclude_names x hx
  · exact defined_names p x ((mem_sortUnique _ _).1 hx)

theorem allExclude_listed {c : Word} (hc : c ∈ listed p.toDeclaration ∨ c ∈ p.slave) : c ∈ allExclude p.toDeclaration := by
  refine foldl_propagate_keeps _ _ c ?_
  simp only [listed, List.mem_append] at hc ⊢
  tauto

theorem allExclude_sub {x : Word} (hx : x ∈ allExclude p.toDeclaration) :
    (x ∈ listed p.toDeclaration ∨ x ∈ p.slave) ∨ x ∈ defined p.toDeclaration := by
  rcases foldl_propagate_adds _ _ x hx with hx | hx
  · simp only [listed, List.mem_append] at hx ⊢
    tauto
  · exact .inr ((mem_sortUnique _ _).1 hx)

theorem sorted_plain : ∀ y ∈ sortUnique (allExclude p.toDeclaration), Plain y := by
  intro y hy
  exact (allExclude_names p y ((mem_sortUnique _ _).1 hy)).1.2

theorem mem_remaining_define (x : Word) :
    x ∈ (remaining p.toDeclaration).define ↔ x ∈ defined p.toDeclaration ∧ x ∉ allExclude p.toDeclaration := by
  rw [remaining, foldl_removeOption_define, mem_foldl_excluding _ (sorted_plain p), mem_sortUnique]

theorem mem_remaining_default (x : Word) :
    x ∈ (remaining p.toDeclaration).default ↔ x ∈ defaults p.toDeclaration ∧ x ∉ allExclude p.toDeclaration := by
  rw [remaining, foldl_removeOption_default, mem_foldl_excluding _ (sorted_plain p), mem_sortUnique]

theorem mem_remaining_members {kind : Kind} {m : Word} (hm : m ∈ p.groups kind) (x : Word) :
    x ∈ (remaining p.toDeclaration).members kind m ↔ x ∈ p.members kind m ∧ x ∉ allExclude p.toDeclaration := by
  rw [remaining, foldl_removeOption_members _ _ _ hm, mem_foldl_excluding _ (sorted_plain p), mem_sortUnique]

theorem mem_remainingGroups (kind : Kind) (m : Word) :
    m ∈ remainingGroups p.toDeclaration kind ↔
      m ∈ p.groups kind ∧ (remaining p.toDeclaration).members kind m ≠ [] := by
  have hfold : ∀ seen groups : List Word, (∀ y ∈ seen, Plain y) → (m ∈ seen.foldl (fun groups m =>
      if ((remaining p.toDeclaration).members kind m).isEmpty then excluding m groups else groups) groups ↔
      m ∈ groups ∧ (m ∈ seen → (remaining p.toDeclaration).members kind m ≠ [])) := by
    intro seen
    induction seen with
    | nil => simp
    | cons y seen ih =>
      intro groups hseen
      rw [List.foldl_cons, ih _ fun z hz => hseen z (List.mem_cons_of_mem _ hz)]
      split_ifs with hempty
      · rw [mem_excluding_plain (hseen y List.mem_cons_self), List.mem_cons]
        rw [List.isEmpty_iff] at hempty
        constructor
        · rintro ⟨⟨hm, hne⟩, hrest⟩
          exact ⟨hm, fun h => hrest (h.resolve_left hne)⟩
        · rintro ⟨hm, hrest⟩
          exact ⟨⟨hm, fun he => hrest (.inl he) (he ▸ hempty)⟩, fun h => hrest (.inr h)⟩
      · rw [List.isEmpty_iff] at hempty
        rw [List.mem_cons]
        constructor
        · rintro ⟨hm, hrest⟩
          exact ⟨hm, fun h => h.elim (fun he => he ▸ hempty) hrest⟩
        · rintro ⟨hm, hrest⟩
          exact ⟨hm, fun h => hrest (.inr h)⟩
  rw [remainingGroups, hfold _ _ fun y hy => (p.groups_names kind y hy).1.2]
  exact ⟨fun h => ⟨h.1, h.2 h.1⟩, fun h => ⟨h.1, fun _ => h.2⟩⟩

theorem mem_complete (x : Word) :
    x ∈ complete p.toDeclaration ↔
      (x ∈ defined p.toDeclaration ∨ ∃ kind, ∃ m ∈ p.groups kind, x ∈ p.members kind m) ∧ x ∉ allExclude p.toDeclaration := by
  simp only [complete, List.mem_append, mem_sortUnique, mem_remaining_define, List.mem_flatMap, mem_remainingGroups]
  constructor
  · rintro (⟨hx, hnot⟩ | ⟨kind, -, m, ⟨hm, -⟩, hx⟩)
    · exact ⟨.inl hx, hnot⟩
    · obtain ⟨hmem, hnot⟩ := (mem_remaining_members p hm x).1 hx
      exact ⟨.inr ⟨kind, m, hm, hmem⟩, hnot⟩
  · rintro ⟨hx | ⟨kind, m, hm, hx⟩, hnot⟩
    · exact .inl ⟨hx, hnot⟩
    · have hmem := (mem_remaining_members p hm x).2 ⟨hx, hnot⟩
      refine .inr ⟨kind, ?_, m, ⟨hm, List.ne_nil_of_mem hmem⟩, hmem⟩
      cases kind <;> decide

theorem complete_names : ∀ x ∈ complete p.toDeclaration, Name x := by
  intro x hx
  rcases ((mem_complete p x).1 hx).1 with hx | ⟨kind, m, hm, hx⟩
  · exact defined_names p x hx
  · exact p.members_names kind m hm x hx

theorem complete_named : Named p.implies (complete p.toDeclaration) := by
  intro x hx
  exact ⟨(complete_names p x hx).1, fun y hy => (p.implies_names x y hy).1⟩

theorem setOptions_absent {complete : List Word} {c : Word} (hc : Plain c) (hnot : c ∉ complete) (opts : List Word) (l : Layer)
    (h : c ∉ l.port) : c ∉ (setOptions complete opts l).port := by
  unfold setOptions
  induction opts generalizing l with
  | nil => exact h
  | cons opt opts ih =>
    refine ih _ ?_
    dsimp only
    split_ifs with hopt
    · rw [List.mem_append, List.mem_singleton, not_or]
      refine ⟨h, ?_⟩
      rintro rfl
      exact hnot ((hasMatch_plain hc complete).1 hopt)
    · exact h

theorem unsetOptions_absent {c : Word} (opts : List Word) (l : Layer) (h : c ∉ l.port) : c ∉ (unsetOptions opts l).port := by
  unfold unsetOptions
  induction opts generalizing l with
  | nil => exact h
  | cons opt opts ih => exact ih _ fun hc => h (List.mem_filter.1 hc).1

theorem declaredOptions_absent {c : Word} (hc : c ∈ allExclude p.toDeclaration) : c ∉ declaredOptions p.toDeclaration := by
  rw [declaredOptions, List.mem_append, mem_foldl_excluding _ (sorted_plain p), mem_sortUnique, mem_sortUnique,
    mem_remaining_default]
  tauto

theorem settled_absent (s : Settings) {c : Word} (hc : c ∈ allExclude p.toDeclaration) :
    c ∉ (settled p.toDeclaration s).port := by
  have hplain : Plain c := (allExclude_names p c hc).1.2
  have hnot : c ∉ complete p.toDeclaration := fun h => ((mem_complete p c).1 h).2 hc
  have hset : ∀ opts l, c ∉ l.port → c ∉ (setOptions (complete p.toDeclaration) opts l).port :=
    fun opts l => setOptions_absent hplain hnot opts l
  have hunset : ∀ opts l, c ∉ l.port → c ∉ (unsetOptions opts l).port := fun opts l => unsetOptions_absent opts l
  unfold settled
  refine hunset _ _ (hset _ _ (hunset _ _ (hset _ _ (hunset _ _ (hset _ _ (hunset _ _ (hset _ _ ?_)))))))
  split_ifs
  · exact declaredOptions_absent p hc
  · exact hunset _ _ (hset _ _ (hunset _ _ (hset _ _ (declaredOptions_absent p hc))))

theorem mem_portOptions (s : Settings) (c : Word) :
    c ∈ portOptions p.toDeclaration s ↔ (∃ x ∈ (settled p.toDeclaration s).port,
      ReflTransGen (Implies p.implies (complete p.toDeclaration)) x c) ∨ c ∈ p.slave := by
  rw [portOptions, mem_sortUnique, List.mem_append, mem_resolve (complete_named p)]

/-- What an option implies that is left to choose from is not excluded, where the port is sealed. -/
theorem sealed_implies (h : Sealed p.toDeclaration) {x c : Word} (hxc : Implies p.implies (complete p.toDeclaration) x c)
    (hc : c ∈ listed p.toDeclaration) : c ∈ p.slave := by
  obtain ⟨hx, himplies⟩ := hxc
  obtain ⟨hwhere, hnot⟩ := (mem_complete p x).1 hx
  have hexcluded : x ∉ listed p.toDeclaration ∧ x ∉ p.slave :=
    ⟨fun hl => hnot (allExclude_listed p (.inl hl)), fun hs => hnot (allExclude_listed p (.inr hs))⟩
  have hundefined : x ∉ defined p.toDeclaration := by
    intro hdefined
    refine hnot (foldl_propagate_implied _ ((mem_sortUnique _ _).2 hdefined) (complete_names p x hx)
      (p.implies_names x c himplies) himplies ?_)
    simp only [listed, List.mem_append] at hc ⊢
    tauto
  obtain ⟨kind, m, hm, hmember⟩ := hwhere.resolve_left hundefined
  exact h kind m hm x hmember hundefined hexcluded.1 hexcluded.2 c himplies hc

def onlyWith (opt : Word) : Settings := ⟨false, [], [], [], [], [], [], [], [], [], [], [opt], []⟩

theorem onlyWith_set {x : Word} (hx : x ∈ complete p.toDeclaration) :
    x ∈ (settled p.toDeclaration (onlyWith x)).port := by
  have hmatch : hasMatch x (complete p.toDeclaration) = true := (hasMatch_plain (complete_names p x hx).1.2 _).2 hx
  simp [settled, onlyWith, setOptions, unsetOptions, hmatch]

theorem member_complete (kind : Kind) (m : Word) {x : Word} (hm : m ∈ p.groups kind) (hx : x ∈ p.members kind m)
    (hdefined : x ∉ defined p.toDeclaration) (hlisted : x ∉ listed p.toDeclaration) (hslave : x ∉ p.slave) :
    x ∈ complete p.toDeclaration := by
  refine (mem_complete p x).2 ⟨.inr ⟨kind, m, hm, hx⟩, fun h => ?_⟩
  exact (allExclude_sub p h).elim (fun h => h.elim hlisted hslave) hdefined

/-- The excluded options stay off under all settings exactly where no group member that is not
itself excluded or defined implies one. -/
theorem excluded_inactive_iff :
    (∀ s : Settings, ∀ c ∈ listed p.toDeclaration, c ∈ portOptions p.toDeclaration s → c ∈ p.slave) ↔
      Sealed p.toDeclaration := by
  constructor
  · intro h kind m hm x hx hdefined hlisted hslave c hc hclisted
    have hcomplete := member_complete p kind m hm hx hdefined hlisted hslave
    refine h (onlyWith x) c hclisted ((mem_portOptions p _ c).2 (.inl ⟨x, onlyWith_set p hcomplete, ?_⟩))
    exact .single ⟨hcomplete, hc⟩
  · intro h s c hc hmem
    rcases (mem_portOptions p s c).1 hmem with ⟨x, hx, hxc⟩ | hslave
    · rcases ReflTransGen.cases_tail hxc with rfl | ⟨y, -, hyc⟩
      · exact absurd hx (settled_absent p s (allExclude_listed p (.inl hc)))
      · exact sealed_implies p h hyc hc
    · exact hslave

end

/-- A choice between two toolkits, one of which implies an option that is excluded. -/
def toolkits : Port where
  define := ["X11".toList]
  defineArch := []
  default := []
  defaultArch := none
  defaultOtherArchs := []
  groups kind := if kind = .single then ["GUI".toList] else []
  members _ m := if m = "GUI".toList then ["GTK".toList, "QT".toList] else []
  exclude := ["X11".toList]
  excludeArch := []
  excludeOpsys := []
  excludeOsrel := []
  slave := []
  implies opt := if opt = "GTK".toList then ["X11".toList] else []
  initial := []
  define_names := by unfold Name OptionName; decide
  defineArch_names := by simp
  groups_names kind := by
    unfold Name OptionName
    cases kind <;> decide
  members_names kind := by
    unfold Name OptionName
    cases kind <;> decide
  exclude_names := by unfold Name OptionName; decide
  implies_names x y hy := by
    split_ifs at hy
    · rw [List.mem_singleton.1 hy]
      unfold Name OptionName
      decide
    · cases hy

theorem toolkits_active :
    "X11".toList ∈ listed toolkits.toDeclaration ∧ "X11".toList ∉ toolkits.slave ∧
      "X11".toList ∈ portOptions toolkits.toDeclaration (onlyWith "GTK".toList) := by
  have hcomplete : "GTK".toList ∈ complete toolkits.toDeclaration :=
    member_complete toolkits .single "GUI".toList (by decide) (by decide) (by decide) (by decide) (by decide)
  refine ⟨by decide, by decide, (mem_portOptions toolkits _ _).2 (.inl ⟨_, onlyWith_set toolkits hcomplete, ?_⟩)⟩
  exact .single ⟨hcomplete, by decide⟩

end Mports.OptionLayers
