import Mports.MakeWords
import Mports.PassClosure
import Mports.ShellText

set_option autoImplicit false

namespace Mports.OptionImplies
open MakeWords ShellText PassClosure Relation

/-- `:R`, all but what follows the last dot. -/
def root (word : Word) : Word :=
  if '.' ∈ word then ((word.reverse.dropWhile (· ≠ '.')).drop 1).reverse else word

/-- `:E`, what follows the last dot. -/
def ext (word : Word) : Word := if '.' ∈ word then (word.reverse.takeWhile (· ≠ '.')).reverse else []

/-- `A.B`. -/
def pair (opt implied : Word) : Word := opt ++ '.' :: implied

def depchain (implies : Word → List Word) (complete : List Word) : List Word :=
  complete.flatMap fun opt => (implies opt).map (pair opt)

def addMissing (opts : List Word) (d : Word) : List Word := if hasMatch d opts then opts else opts ++ [d]

/-- What the pair adds for one option that is set: its right side, and that of the pairs which go
on from there. -/
def addImplied (chain : List Word) (dc : Word) (opts : List Word) (opt : Word) : List Word :=
  if strMatch (root dc) opt then
    (ext dc :: (chain.filter (strMatch (ext dc ++ ".*".toList))).map ext).foldl addMissing opts
  else opts

def addPair (chain opts : List Word) (dc : Word) : List Word := opts.foldl (addImplied chain dc) opts

def pass (chain opts : List Word) : List Word := chain.foldl (addPair chain) opts

/-- `PORT_OPTIONS` and `_PORT_OPTIONS`. -/
structure Options where
  port : List Word
  next : List Word

def countStep (chain : List Word) (o : Options) (count : Word) : Options :=
  if count = "_0".toList ∨ o.next ≠ o.port then ⟨o.next, pass chain o.next⟩ else o

def resolve (implies : Word → List Word) (complete start : List Word) : List Word :=
  (("_0".toList :: complete).foldl (countStep (depchain implies complete)) ⟨start, start⟩).port

def Implies (implies : Word → List Word) (complete : List Word) (x y : Word) : Prop := x ∈ complete ∧ y ∈ implies x

def OptionName (word : Word) : Prop := '.' ∉ word ∧ Plain word

theorem pair_reverse (opt implied : Word) : (pair opt implied).reverse = implied.reverse ++ '.' :: opt.reverse := by
  simp [pair]

theorem root_pair (opt : Word) {implied : Word} (h : '.' ∉ implied) : root (pair opt implied) = opt := by
  have hdot : '.' ∈ pair opt implied := by simp [pair]
  rw [root, if_pos hdot, pair_reverse, List.dropWhile_append_of_pos, List.dropWhile_cons_of_neg (by simp)]
  · simp
  · intro c hc
    have hne : c ≠ '.' := fun he => h (he ▸ List.mem_reverse.1 hc)
    simpa using hne

theorem ext_pair (opt : Word) {implied : Word} (h : '.' ∉ implied) : ext (pair opt implied) = implied := by
  have hdot : '.' ∈ pair opt implied := by simp [pair]
  rw [ext, if_pos hdot, pair_reverse, List.takeWhile_append_of_pos, List.takeWhile_cons_of_neg (by simp)]
  · simp
  · intro c hc
    have hne : c ≠ '.' := fun he => h (he ▸ List.mem_reverse.1 hc)
    simpa using hne

theorem dotted_inj {x y rest rest' : Word} (hx : '.' ∉ x) (hy : '.' ∉ y) (h : x ++ '.' :: rest = y ++ '.' :: rest') : x = y := by
  have hstop : ∀ {w r : Word}, '.' ∉ w → (w ++ '.' :: r).takeWhile (· ≠ '.') = w := by
    intro w r hw
    refine takeWhile_stop (fun c hc => ?_) (by simp)
    have hne : c ≠ '.' := fun he => hw (he ▸ hc)
    simpa using hne
  rw [← hstop (r := rest) hx, h, hstop hy]

theorem mem_addMissing {d : Word} (hd : Plain d) (opts : List Word) (y : Word) :
    y ∈ addMissing opts d ↔ y ∈ opts ∨ y = d := by
  unfold addMissing
  split_ifs with h
  · rw [hasMatch_plain hd] at h
    constructor
    · exact .inl
    · rintro (hy | rfl)
      · exact hy
      · exact h
  · simp

theorem mem_foldl_addMissing (ds : List Word) (hds : ∀ d ∈ ds, Plain d) (opts : List Word) (y : Word) :
    y ∈ ds.foldl addMissing opts ↔ y ∈ opts ∨ y ∈ ds := by
  induction ds generalizing opts with
  | nil => simp
  | cons d ds ih =>
    rw [List.foldl_cons, ih fun x hx => hds x (List.mem_cons_of_mem _ hx), mem_addMissing (hds d List.mem_cons_self),
      or_assoc, List.mem_cons]

section
variable (implies : Word → List Word) (complete : List Word)

def Named : Prop := ∀ x ∈ complete, OptionName x ∧ ∀ y ∈ implies x, OptionName y

theorem mem_depchain (dc : Word) :
    dc ∈ depchain implies complete ↔ ∃ x y, Implies implies complete x y ∧ dc = pair x y := by
  simp only [depchain, List.mem_flatMap, List.mem_map, Implies]
  constructor
  · rintro ⟨x, hx, y, hy, rfl⟩
    exact ⟨x, y, ⟨hx, hy⟩, rfl⟩
  · rintro ⟨x, y, ⟨hx, hy⟩, rfl⟩
    exact ⟨x, hx, y, hy, rfl⟩

variable {implies complete}

theorem mem_onward (hnamed : Named implies complete) {y z : Word} (hy : OptionName y) :
    z ∈ ((depchain implies complete).filter (strMatch (y ++ ".*".toList))).map ext ↔ Implies implies complete y z := by
  have hplain : Plain (y ++ ['.']) := by
    intro c hc
    rcases List.mem_append.1 hc with hc | hc
    · exact hy.2 c hc
    · rw [List.mem_singleton.1 hc]
      decide
  have hpattern : y ++ ".*".toList = (y ++ ['.']) ++ ['*'] := by simp
  rw [hpattern, List.mem_map]
  constructor
  · rintro ⟨dc, hdc, rfl⟩
    obtain ⟨hchain, hmatch⟩ := List.mem_filter.1 hdc
    obtain ⟨x, w, hxw, rfl⟩ := (mem_depchain implies complete dc).1 hchain
    obtain ⟨hx, hw⟩ := hnamed x hxw.1
    obtain ⟨rest, hrest⟩ := (strMatch_star hplain _).1 hmatch
    rw [List.append_assoc, List.singleton_append] at hrest
    rw [ext_pair x (hw w hxw.2).1, dotted_inj hy.1 hx.1 hrest]
    exact hxw
  · intro hyz
    refine ⟨pair y z, List.mem_filter.2 ⟨(mem_depchain implies complete _).2 ⟨y, z, hyz, rfl⟩, ?_⟩, ?_⟩
    · refine (strMatch_star hplain _).2 ⟨z, ?_⟩
      rw [pair, List.append_assoc, List.singleton_append]
    · exact ext_pair y ((hnamed y hyz.1).2 z hyz.2).1

theorem mem_addImplied (hnamed : Named implies complete) {x y : Word} (hxy : Implies implies complete x y)
    (opts : List Word) (opt z : Word) :
    z ∈ addImplied (depchain implies complete) (pair x y) opts opt ↔
      z ∈ opts ∨ opt = x ∧ (z = y ∨ Implies implies complete y z) := by
  obtain ⟨hx, himplied⟩ := hnamed x hxy.1
  have hy := himplied y hxy.2
  unfold addImplied
  rw [root_pair x hy.1, ext_pair x hy.1]
  split_ifs with h
  · rw [strMatch_plain hx.2] at h
    rw [mem_foldl_addMissing, List.mem_cons, mem_onward hnamed hy]
    · simp [h]
    · intro d hd
      rcases List.mem_cons.1 hd with rfl | hd
      · exact hy.2
      · rw [mem_onward hnamed hy] at hd
        exact ((hnamed y hd.1).2 d hd.2).2
  · rw [strMatch_plain hx.2] at h
    simp [h]

theorem mem_foldl_addImplied (hnamed : Named implies complete) {x y : Word} (hxy : Implies implies complete x y)
    (snapshot opts : List Word) (z : Word) :
    z ∈ snapshot.foldl (addImplied (depchain implies complete) (pair x y)) opts ↔
      z ∈ opts ∨ x ∈ snapshot ∧ (z = y ∨ Implies implies complete y z) := by
  induction snapshot generalizing opts with
  | nil => simp
  | cons opt snapshot ih =>
    rw [List.foldl_cons, ih, mem_addImplied hnamed hxy, List.mem_cons, or_assoc, or_and_right]
    simp only [eq_comm]

theorem mem_addPair (hnamed : Named implies complete) {x y : Word} (hxy : Implies implies complete x y)
    (opts : List Word) (z : Word) :
    z ∈ addPair (depchain implies complete) opts (pair x y) ↔
      z ∈ opts ∨ x ∈ opts ∧ (z = y ∨ Implies implies complete y z) :=
  mem_foldl_addImplied hnamed hxy opts opts z

theorem foldl_addPair_keeps (hnamed : Named implies complete) (chain : List Word)
    (hchain : ∀ dc ∈ chain, dc ∈ depchain implies complete) (opts : List Word) :
    ∀ x ∈ opts, x ∈ chain.foldl (addPair (depchain implies complete)) opts := by
  induction chain generalizing opts with
  | nil => exact fun x hx => hx
  | cons dc chain ih =>
    intro z hz
    obtain ⟨x, y, hxy, rfl⟩ := (mem_depchain implies complete dc).1 (hchain _ List.mem_cons_self)
    refine ih (fun dc hdc => hchain dc (List.mem_cons_of_mem _ hdc)) _ z ?_
    exact (mem_addPair hnamed hxy opts z).2 (.inl hz)

theorem foldl_addPair_follows (hnamed : Named implies complete) (chain : List Word)
    (hchain : ∀ dc ∈ chain, dc ∈ depchain implies complete) (opts : List Word) {x y : Word} (hx : x ∈ opts)
    (hxy : Implies implies complete x y) (hmem : pair x y ∈ chain) :
    y ∈ chain.foldl (addPair (depchain implies complete)) opts := by
  induction chain generalizing opts with
  | nil => cases hmem
  | cons dc chain ih =>
    have hrest : ∀ dc ∈ chain, dc ∈ depchain implies complete := fun dc hdc => hchain dc (List.mem_cons_of_mem _ hdc)
    rw [List.foldl_cons]
    rcases List.mem_cons.1 hmem with rfl | hmem
    · exact foldl_addPair_keeps hnamed chain hrest _ y ((mem_addPair hnamed hxy opts y).2 (.inr ⟨hx, .inl rfl⟩))
    · refine ih hrest _ ?_ hmem
      obtain ⟨a, b, hab, rfl⟩ := (mem_depchain implies complete dc).1 (hchain _ List.mem_cons_self)
      exact (mem_addPair hnamed hab opts x).2 (.inl hx)

theorem foldl_addPair_reached (hnamed : Named implies complete) (chain : List Word)
    (hchain : ∀ dc ∈ chain, dc ∈ depchain implies complete) (opts : List Word) :
    ∀ z ∈ chain.foldl (addPair (depchain implies complete)) opts, ∃ x ∈ opts, ReflTransGen (Implies implies complete) x z := by
  induction chain generalizing opts with
  | nil => exact fun z hz => ⟨z, hz, .refl⟩
  | cons dc chain ih =>
    intro z hz
    obtain ⟨x, y, hxy, rfl⟩ := (mem_depchain implies complete dc).1 (hchain _ List.mem_cons_self)
    obtain ⟨w, hw, hwz⟩ := ih (fun dc hdc => hchain dc (List.mem_cons_of_mem _ hdc)) _ z hz
    rcases (mem_addPair hnamed hxy opts w).1 hw with hw | ⟨hx, rfl | hyw⟩
    · exact ⟨w, hw, hwz⟩
    · exact ⟨x, hx, .head hxy hwz⟩
    · exact ⟨x, hx, .head hxy (.head hyw hwz)⟩

theorem pass_isPass (hnamed : Named implies complete) :
    IsPass (Implies implies complete) (pass (depchain implies complete)) where
  keeps opts := foldl_addPair_keeps hnamed _ (fun _ h => h) opts
  follows opts x hx y hxy :=
    foldl_addPair_follows hnamed _ (fun _ h => h) opts hx hxy ((mem_depchain implies complete _).2 ⟨x, y, hxy, rfl⟩)
  reached opts := foldl_addPair_reached hnamed _ (fun _ h => h) opts

end

theorem countStep_pass (chain port : List Word) (count : Word) :
    countStep chain ⟨port, pass chain port⟩ count = ⟨pass chain port, pass chain (pass chain port)⟩ := by
  unfold countStep
  split_ifs with h
  · rfl
  · have hsame : pass chain port = port := by
      by_contra hne
      exact h (.inr hne)
    rw [hsame, hsame]

theorem foldl_countStep (chain : List Word) (counts : List Word) (port : List Word) :
    counts.foldl (countStep chain) ⟨port, pass chain port⟩ =
      ⟨(pass chain)^[counts.length] port, pass chain ((pass chain)^[counts.length] port)⟩ := by
  induction counts generalizing port with
  | nil => rfl
  | cons count counts ih =>
    rw [List.foldl_cons, countStep_pass, ih, List.length_cons, Function.iterate_succ_apply]

theorem resolve_eq (implies : Word → List Word) (complete start : List Word) :
    resolve implies complete start = (pass (depchain implies complete))^[complete.length] start := by
  have hfirst : countStep (depchain implies complete) ⟨start, start⟩ "_0".toList =
      ⟨start, pass (depchain implies complete) start⟩ := by
    rw [countStep, if_pos (.inl rfl)]
  rw [resolve, List.foldl_cons, hfirst, foldl_countStep]

variable {implies : Word → List Word} {complete : List Word}

theorem mem_resolve (hnamed : Named implies complete) (start : List Word) (y : Word) :
    y ∈ resolve implies complete start ↔ ∃ x ∈ start, ReflTransGen (Implies implies complete) x y := by
  rw [resolve_eq]
  exact mem_iterate (pass_isPass hnamed) (fun x y hxy => hxy.1) start y

/-- The loop ends with the least list that has the options set and is closed under implication. -/
theorem resolve_least (hnamed : Named implies complete) (start : List Word) :
    (∀ x ∈ start, x ∈ resolve implies complete start) ∧
      (∀ x ∈ complete, x ∈ resolve implies complete start → ∀ y ∈ implies x, y ∈ resolve implies complete start) ∧
      ∀ S : Set Word, (∀ x ∈ start, x ∈ S) → (∀ x ∈ complete, x ∈ S → ∀ y ∈ implies x, y ∈ S) →
        ∀ y ∈ resolve implies complete start, y ∈ S := by
  simp only [mem_resolve hnamed]
  refine ⟨fun x hx => ⟨x, hx, .refl⟩, ?_, ?_⟩
  · rintro x hx ⟨z, hz, hzx⟩ y hy
    exact ⟨z, hz, hzx.tail ⟨hx, hy⟩⟩
  · rintro S hstart hclosed y ⟨x, hx, hxy⟩
    induction hxy with
    | refl => exact hstart x hx
    | tail _ hstep ih => exact hclosed _ hstep.1 ih _ hstep.2

def cyclic (opt : Word) : List Word :=
  if opt = ['A'] then [['B']] else if opt = ['B'] then [['C']] else if opt = ['C'] then [['A'], ['X']] else []

theorem cyclic_resolved : ['X'] ∈ resolve cyclic [['C'], ['A'], ['B']] [['A']] := by
  have hnamed : Named cyclic [['C'], ['A'], ['B']] := by
    unfold Named OptionName
    decide
  obtain ⟨hstart, hclosed, -⟩ := resolve_least hnamed [['A']]
  have hb := hclosed ['A'] (by decide) (hstart _ (by decide)) ['B'] (by decide)
  have hc := hclosed ['B'] (by decide) hb ['C'] (by decide)
  exact hclosed ['C'] (by decide) hc ['X'] (by decide)

end Mports.OptionImplies
