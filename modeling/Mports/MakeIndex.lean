import Mports.KeyedWalk
import Mports.PerlText

set_option autoImplicit false

namespace Mports.MakeIndex
open PerlText KeyedWalk
open Relation (ReflTransGen TransGen)

inductive Kind where
  | edep | pdep | fdep | bdep | rdep
  deriving DecidableEq, Repr

def Kind.all : List Kind := [.edep, .pdep, .fdep, .bdep, .rdep]

theorem Kind.mem_all (k : Kind) : k ∈ Kind.all := by cases k <;> decide

/-- One element of `%index`, or of what `$index{$name}` makes up for a name without one. -/
structure Pkg where
  deps : Kind → List String
  rest : String
  text : String
  checked : Bool

abbrev Index := String → Pkg

def Index.empty : Index := fun _ => ⟨fun _ => [], "", "", false⟩

/-- The tables that reading the lines fills. -/
structure Tables where
  byPath : String → Option String
  index : Index
  names : List String

section Reading
variable (canonical : String → String)

def fields (sep : Char) (text : String) : List String := (split sep text.toList).map String.ofList

/-- The columns of a line; `canonical` is `s!^$pwd!/usr/mports!`, which makes up the columns that are
missing before the fifth. -/
def columns (line : String) : List String :=
  let f := fields '|' line
  ((f ++ List.replicate (5 - f.length) "").modify 1 canonical).modify 4 canonical

def readLine (t : Tables) (line : String) : Tables :=
  let f := columns canonical line
  let name := f.getD 0 ""
  let deps : Kind → List String
    | .edep => fields ' ' (f.getD 7 "")
    | .pdep => fields ' ' (f.getD 8 "")
    | .fdep => fields ' ' (f.getD 9 "")
    | .bdep => fields ' ' (f.getD 10 "")
    | .rdep => fields ' ' (f.getD 11 "")
  { byPath := Function.update t.byPath (f.getD 1 "") (some name)
    index := Function.update t.index name
      ⟨deps, "|".intercalate (f.drop 12), "|".intercalate (f.take 7), false⟩
    names := t.names ++ [name] }

def readLines (lines : List String) : Tables := lines.foldl (readLine canonical) ⟨fun _ => none, Index.empty, []⟩

def collapse (dir : String) : String :=
  "/".intercalate ((fields '/' dir).foldl
    (fun p part => if "..".toList <:+: part.toList then p.dropLast else p ++ [part]) [])

def byPath (t : Tables) (dir : String) : Option String :=
  (t.byPath dir).or ((t.byPath (canonical dir)).or (t.byPath (collapse (canonical dir))))

/-- The mapping between directories and package names; a directory without one leaves `undef`. -/
def mapped (t : Tables) : Index := fun name =>
  { t.index name with deps := fun k => ((t.index name).deps k).map fun dir => (byPath canonical t dir).getD "" }

end Reading

/-- `grep {! $seen{$_}++}`. -/
def uniqifyFrom (seen : List String) : List String → List String
  | [] => []
  | x :: xs => if x ∈ seen then uniqifyFrom seen xs else x :: uniqifyFrom (x :: seen) xs

def uniqify (l : List String) : List String := uniqifyFrom [] l

theorem mem_uniqifyFrom {seen l : List String} {x : String} : x ∈ uniqifyFrom seen l ↔ x ∈ l ∧ x ∉ seen := by
  induction l generalizing seen with
  | nil => simp [uniqifyFrom]
  | cons y ys ih =>
    unfold uniqifyFrom
    split_ifs with hseen
    · rw [ih, List.mem_cons]
      constructor
      · exact fun ⟨hx, hnot⟩ => ⟨.inr hx, hnot⟩
      · rintro ⟨rfl | hx, hnot⟩
        · exact absurd hseen hnot
        · exact ⟨hx, hnot⟩
    · rw [List.mem_cons, ih, List.mem_cons, List.mem_cons]
      by_cases heq : x = y
      · simp [heq, hseen]
      · simp [heq]

theorem nodup_uniqifyFrom (seen l : List String) : (uniqifyFrom seen l).Nodup := by
  induction l generalizing seen with
  | nil => exact List.nodup_nil
  | cons y ys ih =>
    unfold uniqifyFrom
    split_ifs
    · exact ih seen
    · refine List.nodup_cons.2 ⟨fun hy => ?_, ih _⟩
      exact (mem_uniqifyFrom.1 hy).2 List.mem_cons_self

@[simp] theorem mem_uniqify {l : List String} {x : String} : x ∈ uniqify l ↔ x ∈ l := by
  simp [uniqify, mem_uniqifyFrom]

theorem nodup_uniqify (l : List String) : (uniqify l).Nodup := nodup_uniqifyFrom [] l

section Recursion

/-- The loop over one list: each port is visited, and then its `rdep` as it stands is taken. -/
def collect (visit : String → Index → Option Index) : List String → Index → Option (List String × Index)
  | [], s => some ([], s)
  | name :: rest, s => (visit name s).bind fun s =>
    (collect visit rest s).map fun (deps, s') => ((s name).deps .rdep ++ deps, s')

/-- One of the five lists of a port with what its members run on. -/
def expand (visit : String → Index → Option Index) (k : Kind) (name : String) (s : Index) : Option Index :=
  (collect visit ((s name).deps k) s).map fun (deps, s) =>
    Function.update s name { s name with
      deps := Function.update (s name).deps k (uniqify ((s name).deps k ++ deps)) }

/-- `$pkg->{checked} = 1`. -/
def mark (name : String) (s : Index) : Index := Function.update s name { s name with checked := true }

/-- The port is marked before its `bdep` and `rdep` are expanded. -/
def recurse : ℕ → String → Index → Option Index
  | 0, _, _ => none
  | fuel + 1, name, s =>
    if (s name).checked then some s
    else do
      let s ← expand (recurse fuel) .edep name s
      let s ← expand (recurse fuel) .pdep name s
      let s ← expand (recurse fuel) .fdep name s
      let s ← expand (recurse fuel) .bdep name (mark name s)
      let s ← expand (recurse fuel) .rdep name (mark name s)
      return mark name s

end Recursion

/-- A line of the new INDEX. -/
structure Entry where
  name : String
  text : String
  deps : Kind → List String
  rest : String

def Entry.render (e : Entry) : String :=
  let list k := " ".intercalate (e.deps k)
  e.text ++ "|" ++ list .bdep ++ "|" ++ list .rdep ++ "|" ++ e.rest ++ "|" ++
    list .edep ++ "|" ++ list .pdep ++ "|" ++ list .fdep

def entry (name : String) (pkg : Pkg) : Entry :=
  ⟨name, pkg.text, fun k => (pkg.deps k).insertionSort (· ≤ ·), pkg.rest⟩

def writeOut (fuel : ℕ) : List String → List String → Index → Option (List Entry)
  | [], _, _ => some []
  | name :: rest, printed, s =>
    if name ∈ printed then writeOut fuel rest printed s
    else (recurse fuel name s).bind fun s =>
      (writeOut fuel rest (name :: printed) s).map (entry name (s name) :: ·)

def makeIndex (fuel : ℕ) (canonical : String → String) (lines : List String) : Option (List Entry) :=
  let t := readLines canonical lines
  writeOut fuel t.names [] (mapped canonical t)

section Graph
variable (G : Index)

/-- `b` is a run dependency of `a`. -/
def Run (a b : String) : Prop := b ∈ (G a).deps .rdep

def Dep (a b : String) : Prop := ∃ k, b ∈ (G a).deps k

/-- `recurse` comes from `a` to `b` before it marks `a`. -/
def Early (a b : String) : Prop := b ∈ (G a).deps .edep ∨ b ∈ (G a).deps .pdep ∨ b ∈ (G a).deps .fdep

def Closure (k : Kind) (name x : String) : Prop := ∃ d ∈ (G name).deps k, ReflTransGen (Run G) d x

def Lists (k : Kind) (name : String) (l : List String) : Prop := l.Nodup ∧ ∀ x, x ∈ l ↔ Closure G k name x

theorem closure_rdep {name x : String} : Closure G .rdep name x ↔ TransGen (Run G) name x :=
  (TransGen.head'_iff : TransGen (Run G) name x ↔ _).symm

structure Done (s : Index) (name : String) : Prop where
  checked : (s name).checked = true
  lists : ∀ k, Lists G k name ((s name).deps k)
  text : (s name).text = (G name).text
  rest : (s name).rest = (G name).rest

/-- Not visited yet, or done with all below it. -/
def Settled (s : Index) (name : String) : Prop :=
  s name = G name ∨ ∀ m, ReflTransGen (Dep G) name m → Done G s m

end Graph

section Returns
variable {G : Index} {s s' : Index} {name : String}

def Returns (f : ℕ → Option Index) (s' : Index) : Prop := ∃ n, ∀ fuel, n ≤ fuel → f fuel = some s'

theorem Done.of_eq {m : String} (h : Done G s m) (heq : s' m = s m) : Done G s' m := by
  constructor <;> rw [heq]
  · exact h.checked
  · exact h.lists
  · exact h.text
  · exact h.rest

theorem Settled.of_eq {m : String} (h : Settled G s m) (heq : ∀ x, ReflTransGen (Dep G) m x → s' x = s x) :
    Settled G s' m :=
  h.imp (heq m .refl).trans fun hd x hx => (hd x hx).of_eq (heq x hx)

/-- What a visit of a port comes to: everything below it is done, the rest as before. -/
structure Visited (G : Index) (name : String) (s s' : Index) : Prop where
  below : ∀ m, ReflTransGen (Dep G) name m → Done G s' m
  others : ∀ m, ¬ ReflTransGen (Dep G) name m → s' m = s m

/-- A port is visited as it should be, from every table it can be visited in. -/
def Visits (G : Index) (name : String) : Prop :=
  ∀ s, (∀ m, ReflTransGen (Dep G) name m → Settled G s m) →
    ∃ s', Returns (fun fuel => recurse fuel name s) s' ∧ Visited G name s s'

theorem Visited.keeps {m : String} (h : Visited G name s s') (hm : Done G s m) : Done G s' m := by
  by_cases hreach : ReflTransGen (Dep G) name m
  · exact h.below m hreach
  · exact hm.of_eq (h.others m hreach)

theorem Visited.settled {m : String} (h : Visited G name s s') (hm : Settled G s m) : Settled G s' m := by
  by_cases hreach : ReflTransGen (Dep G) name m
  · exact .inr fun x hx => h.below x (hreach.trans hx)
  · cases hm with
    | inl hfresh => exact .inl ((h.others m hreach).trans hfresh)
    | inr hdone => exact .inr fun x hx => h.keeps (hdone x hx)

theorem collect_visits {ds : List String} (hvisits : ∀ d ∈ ds, Visits G d)
    (hsettled : ∀ d ∈ ds, ∀ m, ReflTransGen (Dep G) d m → Settled G s m) : ∃ deps s' n,
      (∀ fuel, n ≤ fuel → collect (recurse fuel) ds s = some (deps, s')) ∧
      (∀ d ∈ ds, ∀ m, ReflTransGen (Dep G) d m → Done G s' m) ∧
      (∀ m, (∀ d ∈ ds, ¬ ReflTransGen (Dep G) d m) → s' m = s m) ∧
      (∀ m, Done G s m → Done G s' m) ∧
      ∀ x, x ∈ deps ↔ ∃ d ∈ ds, TransGen (Run G) d x := by
  induction ds generalizing s with
  | nil => exact ⟨[], s, 0, fun _ _ => rfl, by simp, fun _ _ => rfl, fun _ h => h, by simp⟩
  | cons d rest ih =>
    obtain ⟨s₁, ⟨n₁, hreturn⟩, hvisited⟩ := hvisits d List.mem_cons_self s (hsettled d List.mem_cons_self)
    have hsettled₁ : ∀ e ∈ rest, ∀ m, ReflTransGen (Dep G) e m → Settled G s₁ m := by
      intro e he m hm
      exact hvisited.settled (hsettled e (List.mem_cons_of_mem d he) m hm)
    obtain ⟨deps, s₂, n₂, hcollect, hbelow, hothers, hkeeps, hmem⟩ :=
      ih (fun e he => hvisits e (List.mem_cons_of_mem d he)) hsettled₁
    refine ⟨(s₁ d).deps .rdep ++ deps, s₂, max n₁ n₂, ?_, ?_, ?_, ?_, ?_⟩
    · intro fuel hfuel
      have hfirst : recurse fuel d s = some s₁ := hreturn fuel (by omega)
      simp [collect, hfirst, hcollect fuel (by omega)]
    · intro e he m hm
      cases List.mem_cons.1 he with
      | inl heq => exact hkeeps m (hvisited.below m (heq ▸ hm))
      | inr he => exact hbelow e he m hm
    · intro m hm
      rw [hothers m fun e he => hm e (List.mem_cons_of_mem d he), hvisited.others m (hm d List.mem_cons_self)]
    · exact fun m hm => hkeeps m (hvisited.keeps hm)
    · intro x
      have hd : x ∈ (s₁ d).deps .rdep ↔ TransGen (Run G) d x :=
        ((hvisited.below d .refl).lists .rdep |>.2 x).trans (closure_rdep G)
      simp [List.mem_append, hd, hmem]

/-- Where a visit of `name` stands that has expanded the lists `ks`. -/
structure Phase (G : Index) (name : String) (s₀ : Index) (ks : List Kind) (s : Index) : Prop where
  expanded : ∀ k ∈ ks, Lists G k name ((s name).deps k)
  direct : ∀ k, k ∉ ks → (s name).deps k = (G name).deps k
  text : (s name).text = (G name).text
  rest : (s name).rest = (G name).rest
  below : ∀ k ∈ ks, ∀ d ∈ (G name).deps k, ∀ m, ReflTransGen (Dep G) d m → Done G s m
  settled : ∀ m, TransGen (Dep G) name m → Settled G s m
  others : ∀ m, ¬ ReflTransGen (Dep G) name m → s m = s₀ m

section Visit
variable (acyclic : ∀ n, ¬ TransGen (Dep G) n n) {s₀ : Index} {ks : List Kind}
include acyclic

theorem Phase.mark (h : Phase G name s₀ ks s) : Phase G name s₀ ks (mark name s) := by
  have hself : ∀ m, TransGen (Dep G) name m → MakeIndex.mark name s m = s m := by
    intro m hm
    have hne : m ≠ name := fun heq => acyclic name (heq ▸ hm)
    simp [MakeIndex.mark, hne]
  refine ⟨?_, ?_, ?_, ?_, fun k hk d hd m hm => ?_, fun m hm => ?_, fun m hm => ?_⟩
  · simpa [MakeIndex.mark] using h.expanded
  · simpa [MakeIndex.mark] using h.direct
  · simpa [MakeIndex.mark] using h.text
  · simpa [MakeIndex.mark] using h.rest
  · exact (h.below k hk d hd m hm).of_eq (hself m (.head' ⟨k, hd⟩ hm))
  · exact (h.settled m hm).of_eq fun x hx => hself x (hm.trans_left hx)
  · have hne : m ≠ name := fun heq => hm (heq ▸ .refl)
    rw [← h.others m hm]
    simp [MakeIndex.mark, hne]

theorem Phase.expand (visits : ∀ d, Dep G name d → Visits G d) (h : Phase G name s₀ ks s) {k : Kind} (hk : k ∉ ks) :
    ∃ s', Returns (fun fuel => expand (recurse fuel) k name s) s' ∧ Phase G name s₀ (k :: ks) s' := by
  have hds : (s name).deps k = (G name).deps k := h.direct k hk
  have hdep : ∀ d ∈ (G name).deps k, Dep G name d := fun d hd => ⟨k, hd⟩
  obtain ⟨deps, s₁, n, hcollect, hbelow, hothers, hkeeps, hmem⟩ := collect_visits (s := s)
    (fun d hd => visits d (hdep d hd)) (fun d hd m hm => h.settled m (.head' (hdep d hd) hm))
  have hown : s₁ name = s name := hothers name fun d hd hreach => acyclic name (.head' (hdep d hd) hreach)
  have hall : Lists G k name (uniqify ((s name).deps k ++ deps)) := by
    refine ⟨nodup_uniqify _, fun x => ?_⟩
    rw [mem_uniqify, List.mem_append, hds, hmem]
    constructor
    · rintro (hx | ⟨d, hd, hrun⟩)
      · exact ⟨x, hx, .refl⟩
      · exact ⟨d, hd, hrun.to_reflTransGen⟩
    · rintro ⟨d, hd, hrun⟩
      rcases Relation.reflTransGen_iff_eq_or_transGen.1 hrun with rfl | hrun
      · exact .inl hd
      · exact .inr ⟨d, hd, hrun⟩
  generalize hnew : { s name with deps := Function.update (s name).deps k (uniqify ((s name).deps k ++ deps)) } = new
  have hsame : ∀ m, m ≠ name → Function.update s₁ name new m = s₁ m := fun m hne => Function.update_of_ne hne _ _
  have hstrict : ∀ m, TransGen (Dep G) name m → m ≠ name := fun m hm heq => acyclic name (heq ▸ hm)
  refine ⟨Function.update s₁ name new, ⟨n, fun fuel hfuel => ?_⟩, ?_⟩
  · simp [MakeIndex.expand, hds, hcollect fuel hfuel, hown, ← hnew]
  · constructor
    · intro k' hk'
      rw [Function.update_self, ← hnew]
      by_cases heq : k' = k
      · subst heq
        simpa using hall
      · simpa [heq] using h.expanded k' ((List.mem_cons.1 hk').resolve_left heq)
    · intro k' hk'
      rw [Function.update_self, ← hnew]
      have hne : k' ≠ k := fun heq => hk' (heq ▸ List.mem_cons_self)
      simpa [hne] using h.direct k' fun hmem => hk' (List.mem_cons_of_mem k hmem)
    · rw [Function.update_self, ← hnew]
      exact h.text
    · rw [Function.update_self, ← hnew]
      exact h.rest
    · intro k' hk' d hd m hm
      have hne := hstrict m (.head' ⟨k', hd⟩ hm)
      refine Done.of_eq ?_ (hsame m hne)
      cases List.mem_cons.1 hk' with
      | inl heq => exact hbelow d (heq ▸ hd) m hm
      | inr hk' => exact hkeeps m (h.below k' hk' d hd m hm)
    · intro m hm
      refine Settled.of_eq ?_ fun x hx => hsame x (hstrict x (hm.trans_left hx))
      by_cases hreach : ∃ d ∈ (G name).deps k, ReflTransGen (Dep G) d m
      · obtain ⟨d, hd, hdm⟩ := hreach
        exact .inr fun x hx => hbelow d hd x (hdm.trans hx)
      · cases h.settled m hm with
        | inl hfresh => exact .inl ((hothers m fun d hd hdm => hreach ⟨d, hd, hdm⟩).trans hfresh)
        | inr hdone => exact .inr fun x hx => hkeeps x (hdone x hx)
    · intro m hm
      have hne : m ≠ name := fun heq => hm (heq ▸ .refl)
      rw [hsame m hne, ← h.others m hm]
      exact hothers m fun d hd hdm => hm (.head ⟨k, hd⟩ hdm)

theorem visits_of_deps (unchecked : ∀ m, (G m).checked = false) (visits : ∀ d, Dep G name d → Visits G d) :
    Visits G name := by
  intro s hsettled
  rcases hsettled name .refl with hfresh | hdone
  · have hstart : Phase G name s [] s :=
      ⟨by simp, fun k _ => by rw [hfresh], by rw [hfresh], by rw [hfresh], by simp,
        fun m hm => hsettled m hm.to_reflTransGen, fun m _ => rfl⟩
    obtain ⟨s₁, ⟨n₁, h₁⟩, hphase₁⟩ := hstart.expand acyclic visits (k := .edep) (by decide)
    obtain ⟨s₂, ⟨n₂, h₂⟩, hphase₂⟩ := hphase₁.expand acyclic visits (k := .pdep) (by decide)
    obtain ⟨s₃, ⟨n₃, h₃⟩, hphase₃⟩ := hphase₂.expand acyclic visits (k := .fdep) (by decide)
    obtain ⟨s₄, ⟨n₄, h₄⟩, hphase₄⟩ := (hphase₃.mark acyclic).expand acyclic visits (k := .bdep) (by decide)
    obtain ⟨s₅, ⟨n₅, h₅⟩, hphase₅⟩ := (hphase₄.mark acyclic).expand acyclic visits (k := .rdep) (by decide)
    have hend := hphase₅.mark acyclic
    refine ⟨mark name s₅, ⟨max (max (max n₁ n₂) (max n₃ n₄)) n₅ + 1, fun fuel hfuel => ?_⟩, ⟨fun m hm => ?_, hend.others⟩⟩
    · obtain ⟨fuel, rfl⟩ : ∃ f, fuel = f + 1 := ⟨fuel - 1, by omega⟩
      have hopen : (s name).checked = false := by rw [hfresh, unchecked]
      have e₁ := h₁ fuel (by omega)
      have e₂ := h₂ fuel (by omega)
      have e₃ := h₃ fuel (by omega)
      have e₄ := h₄ fuel (by omega)
      have e₅ := h₅ fuel (by omega)
      simp only at e₁ e₂ e₃ e₄ e₅
      simp [recurse, hopen, e₁, e₂, e₃, e₄, e₅]
    · rcases Relation.reflTransGen_iff_eq_or_transGen.1 hm with rfl | hm
      · refine ⟨by simp [mark], fun k => hend.expanded k ?_, hend.text, hend.rest⟩
        cases k <;> decide
      · obtain ⟨d, ⟨k, hd⟩, hreach⟩ := (TransGen.head'_iff.1 hm)
        refine hend.below k ?_ d hd m hreach
        cases k <;> decide
  · refine ⟨s, ⟨1, fun fuel hfuel => ?_⟩, ⟨hdone, fun _ _ => rfl⟩⟩
    obtain ⟨fuel, rfl⟩ : ∃ f, fuel = f + 1 := ⟨fuel - 1, by omega⟩
    simp [recurse, (hdone name .refl).checked]

end Visit

theorem visits_all (acyclic : ∀ n, ¬ TransGen (Dep G) n n) (unchecked : ∀ m, (G m).checked = false)
    {names : List String} (listed : ∀ a b, Dep G a b → a ∈ names) (n : String) : Visits G n :=
  acyclic_induction_on acyclic listed (fun _ ih => visits_of_deps acyclic unchecked ih) n

structure Right (G : Index) (e : Entry) : Prop where
  lists : ∀ k, Lists G k e.name (e.deps k)
  text : e.text = (G e.name).text
  rest : e.rest = (G e.name).rest

theorem Done.right {name : String} (h : Done G s name) : Right G (entry name (s name)) := by
  refine ⟨fun k => ?_, h.text, h.rest⟩
  have hperm := List.perm_insertionSort (fun a b : String => a ≤ b) ((s name).deps k)
  obtain ⟨hnodup, hmem⟩ := h.lists k
  exact ⟨hperm.nodup_iff.2 hnodup, fun x => hperm.mem_iff.trans (hmem x)⟩

/-- One line for each name, in the order in which the names come first, and all right. -/
structure Prints (G : Index) (names : List String) (out : List Entry) : Prop where
  names : out.map (·.name) = names
  right : ∀ e ∈ out, Right G e

theorem writeOut_prints (visits : ∀ n, Visits G n) (names printed : List String) (s : Index)
    (hsettled : ∀ m, Settled G s m) : ∃ n out, (∀ fuel, n ≤ fuel → writeOut fuel names printed s = some out) ∧
      Prints G (uniqifyFrom printed names) out := by
  induction names generalizing printed s with
  | nil => exact ⟨0, [], fun _ _ => rfl, rfl, by simp⟩
  | cons name rest ih =>
    by_cases hprinted : name ∈ printed
    · obtain ⟨n, out, hreturn, hprints⟩ := ih printed s hsettled
      refine ⟨n, out, fun fuel hfuel => ?_, ?_⟩
      · simpa [writeOut, hprinted] using hreturn fuel hfuel
      · simpa [uniqifyFrom, hprinted] using hprints
    · obtain ⟨s₁, ⟨n₁, hvisit⟩, hvisited⟩ := visits name s fun m _ => hsettled m
      obtain ⟨n₂, out, hreturn, hprints⟩ := ih (name :: printed) s₁ fun m => hvisited.settled (hsettled m)
      refine ⟨max n₁ n₂, entry name (s₁ name) :: out, fun fuel hfuel => ?_, ?_, fun e he => ?_⟩
      · have hfirst : recurse fuel name s = some s₁ := hvisit fuel (by omega)
        simp [writeOut, hprinted, hfirst, hreturn fuel (by omega)]
      · simpa [uniqifyFrom, hprinted, entry] using hprints.names
      · cases List.mem_cons.1 he with
        | inl heq => exact heq ▸ (hvisited.below name .refl).right
        | inr he => exact hprints.right e he

end Returns

section Reading
variable {canonical : String → String}

structure Unvisited (names : List String) (G : Index) : Prop where
  unchecked : ∀ m, (G m).checked = false
  listed : ∀ a b, Dep G a b → a ∈ names

theorem readLine_unvisited {t : Tables} (h : Unvisited t.names t.index) (line : String) :
    Unvisited (readLine canonical t line).names (readLine canonical t line).index := by
  unfold readLine
  dsimp only
  generalize columns canonical line = f
  constructor
  · intro m
    by_cases heq : m = f.getD 0 ""
    · subst heq
      simp
    · rw [Function.update_of_ne heq]
      exact h.unchecked m
  · rintro a b ⟨k, hb⟩
    by_cases heq : a = f.getD 0 ""
    · simp [heq]
    · rw [Function.update_of_ne heq] at hb
      exact List.mem_append_left _ (h.listed a b ⟨k, hb⟩)

theorem readLines_unvisited (canonical : String → String) (lines : List String) :
    Unvisited (readLines canonical lines).names (mapped canonical (readLines canonical lines)) := by
  have hread : ∀ t : Tables, Unvisited t.names t.index →
      Unvisited (lines.foldl (readLine canonical) t).names (lines.foldl (readLine canonical) t).index := by
    induction lines with
    | nil => exact fun t ht => ht
    | cons line rest ih =>
      intro t ht
      rw [List.foldl_cons]
      exact ih (readLine canonical t line) (readLine_unvisited ht line)
  have hstart := hread ⟨fun _ => none, Index.empty, []⟩ ⟨fun _ => rfl, by rintro a b ⟨k, hb⟩; cases hb⟩
  refine ⟨hstart.unchecked, ?_⟩
  rintro a b ⟨k, hb⟩
  obtain ⟨dir, hdir, _⟩ := List.mem_map.1 hb
  exact hstart.listed a dir ⟨k, hdir⟩

end Reading

section Cycles
variable {G : Index} {C : String → Prop} {visit : String → Index → Option Index}

/-- Nothing on the cycle is marked, and no list has lost a dependency. -/
structure Unmarked (G : Index) (C : String → Prop) (s : Index) : Prop where
  unmarked : ∀ m, C m → (s m).checked = false
  direct : ∀ m k, (G m).deps k ⊆ (s m).deps k

def Avoids (G : Index) (C : String → Prop) (visit : String → Index → Option Index) : Prop :=
  ∀ name s s', Unmarked G C s → visit name s = some s' → Unmarked G C s' ∧ ¬ C name

theorem collect_avoids (hvisit : Avoids G C visit) {ds : List String} {s s' : Index} {deps : List String}
    (hs : Unmarked G C s) (hreturn : collect visit ds s = some (deps, s')) :
    Unmarked G C s' ∧ ∀ d ∈ ds, ¬ C d := by
  induction ds generalizing s deps with
  | nil =>
    cases hreturn
    exact ⟨hs, by simp⟩
  | cons d rest ih =>
    simp only [collect, Option.bind_eq_some_iff, Option.map_eq_some_iff] at hreturn
    obtain ⟨s₁, hfirst, ⟨deps₁, s₂⟩, hrest, heq⟩ := hreturn
    cases heq
    obtain ⟨hs₁, hd⟩ := hvisit d s s₁ hs hfirst
    obtain ⟨hs₂, hmore⟩ := ih hs₁ hrest
    exact ⟨hs₂, List.forall_mem_cons.2 ⟨hd, hmore⟩⟩

theorem expand_avoids (hvisit : Avoids G C visit) {k : Kind} {name : String} {s s' : Index}
    (hs : Unmarked G C s) (hreturn : expand visit k name s = some s') :
    Unmarked G C s' ∧ ∀ d ∈ (G name).deps k, ¬ C d := by
  unfold expand at hreturn
  obtain ⟨⟨deps, s₁⟩, hcollect, heq⟩ := Option.map_eq_some_iff.1 hreturn
  obtain ⟨hs₁, hds⟩ := collect_avoids hvisit hs hcollect
  subst heq
  refine ⟨⟨fun m hm => ?_, fun m k' => ?_⟩, fun d hd => hds d (hs.direct name k hd)⟩
  · by_cases heq : m = name
    · subst heq
      simpa using hs₁.unmarked m hm
    · simpa [heq] using hs₁.unmarked m hm
  · by_cases heq : m = name
    · subst heq
      by_cases hk : k' = k
      · subst hk
        intro d hd
        simpa using .inl (hs₁.direct m k' hd)
      · simpa [hk] using hs₁.direct m k'
    · simpa [heq] using hs₁.direct m k'

theorem mark_avoids {name : String} {s : Index} (hs : Unmarked G C s) (hname : ¬ C name) :
    Unmarked G C (mark name s) := by
  refine ⟨fun m hm => ?_, fun m k => ?_⟩
  · have hne : m ≠ name := fun heq => hname (heq ▸ hm)
    simpa [mark, hne] using hs.unmarked m hm
  · by_cases heq : m = name
    · subst heq
      simpa [mark] using hs.direct m k
    · simpa [mark, heq] using hs.direct m k

theorem recurse_avoids (hcycle : ∀ m, C m → ∃ d, C d ∧ Early G m d) (fuel : ℕ) : Avoids G C (recurse fuel) := by
  induction fuel with
  | zero => exact fun _ _ _ _ hreturn => by cases hreturn
  | succ fuel ih =>
    intro name s s' hs hreturn
    unfold recurse at hreturn
    split_ifs at hreturn with hchecked
    · cases hreturn
      refine ⟨hs, fun hC => ?_⟩
      rw [hs.unmarked name hC] at hchecked
      cases hchecked
    · simp only [bind, Option.bind_eq_some_iff, pure, Option.some.injEq] at hreturn
      obtain ⟨s₁, h₁, s₂, h₂, s₃, h₃, s₄, h₄, s₅, h₅, heq⟩ := hreturn
      obtain ⟨hs₁, hedep⟩ := expand_avoids ih hs h₁
      obtain ⟨hs₂, hpdep⟩ := expand_avoids ih hs₁ h₂
      obtain ⟨hs₃, hfdep⟩ := expand_avoids ih hs₂ h₃
      have hname : ¬ C name := by
        intro hC
        obtain ⟨d, hd, hearly⟩ := hcycle name hC
        rcases hearly with hmem | hmem | hmem
        · exact hedep d hmem hd
        · exact hpdep d hmem hd
        · exact hfdep d hmem hd
      obtain ⟨hs₄, _⟩ := expand_avoids ih (mark_avoids hs₃ hname) h₄
      obtain ⟨hs₅, _⟩ := expand_avoids ih (mark_avoids hs₄ hname) h₅
      exact ⟨heq ▸ mark_avoids hs₅ hname, hname⟩

theorem writeOut_never_returns (hcycle : ∀ m, C m → ∃ d, C d ∧ Early G m d) {fuel : ℕ} {names printed : List String}
    {s : Index} (hs : Unmarked G C s) (hprinted : ∀ m ∈ printed, ¬ C m) (hnames : ∃ m ∈ names, C m) :
    writeOut fuel names printed s = none := by
  induction names generalizing printed s with
  | nil => simp at hnames
  | cons name rest ih =>
    unfold writeOut
    split_ifs with hmem
    · refine ih hs hprinted ?_
      obtain ⟨m, hm, hC⟩ := hnames
      rcases List.mem_cons.1 hm with rfl | hm
      · exact absurd hC (hprinted m hmem)
      · exact ⟨m, hm, hC⟩
    · cases hreturn : recurse fuel name s with
      | none => rfl
      | some s₁ =>
        obtain ⟨hs₁, hname⟩ := recurse_avoids hcycle fuel name s s₁ hs hreturn
        have hrest : writeOut fuel rest (name :: printed) s₁ = none := by
          refine ih hs₁ (List.forall_mem_cons.2 ⟨hname, hprinted⟩) ?_
          obtain ⟨m, hm, hC⟩ := hnames
          rcases List.mem_cons.1 hm with rfl | hm
          · exact absurd hC hname
          · exact ⟨m, hm, hC⟩
        simp [hrest]

end Cycles

section Index
variable (canonical : String → String) (lines : List String)

def ports : Index := mapped canonical (readLines canonical lines)

/-- No port depends on itself, through dependencies of any kinds. -/
def Acyclic : Prop := ∀ n, ¬ TransGen (Dep (ports canonical lines)) n n

/-- make_index comes to an end with the lists it should print. -/
def Complete : Prop := ∃ fuel out, makeIndex fuel canonical lines = some out ∧
  Prints (ports canonical lines) (uniqify (readLines canonical lines).names) out

/-- Without a cycle the lists are complete. With a cycle of extract, patch and fetch
dependencies alone the recursion never returns. -/
theorem makeIndex_complete :
    (Acyclic canonical lines → Complete canonical lines) ∧
      ((∃ n, TransGen (Early (ports canonical lines)) n n) → ∀ fuel, makeIndex fuel canonical lines = none) := by
  have hread := readLines_unvisited canonical lines
  constructor
  · intro hacyclic
    have hvisits := visits_all hacyclic hread.unchecked hread.listed
    obtain ⟨n, out, hreturn, hprints⟩ := writeOut_prints hvisits (readLines canonical lines).names []
      (ports canonical lines) fun _ => .inl rfl
    exact ⟨n, out, hreturn n (le_refl n), hprints⟩
  · rintro ⟨n, hn⟩ fuel
    have hcycle : ∀ m, TransGen (Early (ports canonical lines)) m n →
        ∃ d, TransGen (Early (ports canonical lines)) d n ∧ Early (ports canonical lines) m d := by
      intro m hm
      obtain ⟨d, hd, hreach⟩ := TransGen.head'_iff.1 hm
      rcases Relation.reflTransGen_iff_eq_or_transGen.1 hreach with rfl | hreach
      · exact ⟨_, hn, hd⟩
      · exact ⟨d, hreach, hd⟩
    refine writeOut_never_returns hcycle ⟨fun m _ => hread.unchecked m, fun m k => List.Subset.refl _⟩ (by simp) ?_
    obtain ⟨d, hd, _⟩ := TransGen.head'_iff.1 hn
    refine ⟨n, hread.listed n d ?_, hn⟩
    rcases hd with hmem | hmem | hmem
    · exact ⟨_, hmem⟩
    · exact ⟨_, hmem⟩
    · exact ⟨_, hmem⟩

variable {canonical lines}

theorem acyclic_of_rank (rank : String → ℕ) (hrank : ∀ a ∈ (readLines canonical lines).names, ∀ k ∈ Kind.all,
    ∀ b ∈ (ports canonical lines a).deps k, rank b < rank a) : Acyclic canonical lines := by
  have hdown : ∀ a b, TransGen (Dep (ports canonical lines)) a b → rank b < rank a := by
    have hstep : ∀ a b, Dep (ports canonical lines) a b → rank b < rank a := by
      rintro a b ⟨k, hb⟩
      exact hrank a ((readLines_unvisited _ lines).listed a b ⟨k, hb⟩) k (Kind.mem_all k) b hb
    intro a b h
    induction h with
    | single h => exact hstep _ _ h
    | tail _ h ih => exact (hstep _ _ h).trans ih
  exact fun n hn => Nat.lt_irrefl _ (hdown n n hn)

def toolLines : List String :=
  ["tool|/tool||||||||||/helper|",
    "helper|/helper|||||||||||"]

theorem tool_complete : Complete id toolLines := by
  refine (makeIndex_complete id toolLines).1 (acyclic_of_rank (fun name => if name = "tool" then 1 else 0) ?_)
  decide +kernel

end Index

section Fuel
variable {visit visit' : String → Index → Option Index}

theorem collect_mono (hmono : ∀ name s s', visit name s = some s' → visit' name s = some s') {ds : List String}
    {s : Index} {r : List String × Index} (hreturn : collect visit ds s = some r) : collect visit' ds s = some r := by
  induction ds generalizing s r with
  | nil => exact hreturn
  | cons d rest ih =>
    simp only [collect, Option.bind_eq_some_iff, Option.map_eq_some_iff] at hreturn ⊢
    obtain ⟨s₁, hfirst, r₁, hrest, heq⟩ := hreturn
    exact ⟨s₁, hmono d s s₁ hfirst, r₁, ih hrest, heq⟩

theorem expand_mono (hmono : ∀ name s s', visit name s = some s' → visit' name s = some s') {k : Kind}
    {name : String} {s s' : Index} (hreturn : expand visit k name s = some s') : expand visit' k name s = some s' := by
  unfold expand at hreturn ⊢
  obtain ⟨r, hcollect, heq⟩ := Option.map_eq_some_iff.1 hreturn
  exact Option.map_eq_some_iff.2 ⟨r, collect_mono hmono hcollect, heq⟩

theorem recurse_mono (fuel : ℕ) (name : String) (s s' : Index) (hreturn : recurse fuel name s = some s') :
    recurse (fuel + 1) name s = some s' := by
  induction fuel generalizing name s s' with
  | zero => cases hreturn
  | succ fuel ih =>
    unfold recurse at hreturn ⊢
    split_ifs at hreturn ⊢ with hchecked
    · exact hreturn
    · simp only [bind, Option.bind_eq_some_iff] at hreturn ⊢
      obtain ⟨s₁, h₁, s₂, h₂, s₃, h₃, s₄, h₄, s₅, h₅, heq⟩ := hreturn
      exact ⟨s₁, expand_mono ih h₁, s₂, expand_mono ih h₂, s₃, expand_mono ih h₃, s₄, expand_mono ih h₄,
        s₅, expand_mono ih h₅, heq⟩

theorem writeOut_mono {fuel : ℕ} {names printed : List String} {s : Index} {out : List Entry}
    (hreturn : writeOut fuel names printed s = some out) : writeOut (fuel + 1) names printed s = some out := by
  induction names generalizing printed s out with
  | nil => exact hreturn
  | cons name rest ih =>
    unfold writeOut at hreturn ⊢
    split_ifs at hreturn ⊢ with hprinted
    · exact ih hreturn
    · simp only [Option.bind_eq_some_iff, Option.map_eq_some_iff] at hreturn ⊢
      obtain ⟨s₁, hfirst, out₁, hrest, heq⟩ := hreturn
      exact ⟨s₁, recurse_mono fuel name s s₁ hfirst, out₁, ih hrest, heq⟩

theorem makeIndex_unique {canonical : String → String} {lines : List String} {m n : ℕ} {out out' : List Entry}
    (h : makeIndex m canonical lines = some out) (h' : makeIndex n canonical lines = some out') : out = out' := by
  have hmore : ∀ {k : ℕ} {o : List Entry} (d : ℕ), makeIndex k canonical lines = some o →
      makeIndex (k + d) canonical lines = some o := by
    intro k o d ho
    induction d with
    | zero => exact ho
    | succ d ih => exact writeOut_mono ih
  have hm := hmore n h
  have hn := hmore m h'
  rw [Nat.add_comm, hn] at hm
  exact (Option.some.inj hm).symm

end Fuel

/-- A library that runs on a plugin, which runs on the library; and a tool with a helper. -/
def pluginLines : List String :=
  ["lib|/lib||||||||||/plugin /tool|",
    "plugin|/plugin||||||||||/lib|",
    "tool|/tool||||||||||/helper|",
    "helper|/helper|||||||||||"]

theorem plugin_printed : (makeIndex 9 id pluginLines).map (·.map fun e => (e.name, e.deps .rdep)) =
    some [("lib", ["helper", "lib", "plugin", "tool"]), ("plugin", ["lib", "plugin", "tool"]),
      ("tool", ["helper"]), ("helper", [])] := by
  decide +kernel

/-- The plugin is printed without the helper of the tool that the library runs on. -/
theorem plugin_incomplete : ¬ Complete id pluginLines := by
  rintro ⟨fuel, out, hreturn, hprints⟩
  obtain ⟨out', hout, hmap⟩ := Option.map_eq_some_iff.1 plugin_printed
  obtain rfl := makeIndex_unique hreturn hout
  have hplugin : ("plugin", ["lib", "plugin", "tool"]) ∈ out.map fun e => (e.name, e.deps .rdep) := by
    rw [hmap]
    decide
  obtain ⟨e, he, heq⟩ := List.mem_map.1 hplugin
  simp only [Prod.mk.injEq] at heq
  have hlists := ((hprints.right e he).lists .rdep).2 "helper"
  rw [heq.1, heq.2] at hlists
  have hlib : "lib" ∈ (ports id pluginLines "plugin").deps .rdep := by decide +kernel
  have htool : Run (ports id pluginLines) "lib" "tool" := by
    unfold Run
    decide +kernel
  have hhelper : Run (ports id pluginLines) "tool" "helper" := by
    unfold Run
    decide +kernel
  have hmem := hlists.2 ⟨"lib", hlib, .tail (.single htool) hhelper⟩
  revert hmem
  decide

end Mports.MakeIndex
