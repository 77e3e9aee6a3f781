import Mathlib.Data.List.Sort
import Mports.KeyedWalk
import Mports.MagusTables

set_option autoImplicit false

namespace Mports.MagusDepends
open KeyedWalk MagusTables
open Relation (ReflTransGen)

/-- The ports of the `depends` rows of `p` whose type is accepted. -/
def relations (T : Tree) (accept : String → Bool) (p : PortRow) : List PortRow :=
  (T.depends.filter fun d => d.port = p.id ∧ accept d.type).filterMap fun d =>
    T.retrieve d.dependency

def nonTest (type : String) : Bool := type ≠ "test"

/-- `_walk_phase_depends`: only the direct relations may include test ones. -/
def walkPhaseDepends (T : Tree) (p : PortRow) (includeTest : Bool) : List PortRow :=
  walk (relations T nonTest) (·.pkgname) (T.ports.length + 1)
    (relations T (fun type => nonTest type || includeTest) p) []

/-- `delete $depends{$self}; return sort values %depends`. -/
def closureValues (p : PortRow) (depends : List PortRow) : List PortRow :=
  (depends.filter fun d => d.pkgname ≠ p.pkgname).insertionSort fun a b => a.pkgname ≤ b.pkgname

def phaseDependsClosure (T : Tree) (p : PortRow) (includeTest : Bool) : List PortRow :=
  closureValues p (walkPhaseDepends T p includeTest)

def buildDependsClosure (T : Tree) (p : PortRow) : List PortRow := phaseDependsClosure T p false

def testDependsClosure (T : Tree) (p : PortRow) : List PortRow := phaseDependsClosure T p true

def fetchDepends (T : Tree) (p : PortRow) : List PortRow := relations T (fun t => t = "fetch") p

/-- `$depends{$depend} = $depend`, which replaces an object of the same name. -/
def assign (depends : List PortRow) (d : PortRow) : List PortRow :=
  if Seen (·.pkgname) depends d then depends.map fun x => if x.pkgname = d.pkgname then d else x
  else depends ++ [d]

/-- `fetch_depends_closure` walks from every fetch dependency, seen or not, over
relations of all types. -/
def fetchDependsClosure (T : Tree) (p : PortRow) : List PortRow :=
  closureValues p ((fetchDepends T p).foldl (fun depends d =>
    walk (relations T fun _ => true) (·.pkgname) (T.ports.length + 1)
      (relations T (fun _ => true) d) (assign depends d)) [])

theorem mem_relations {T : Tree} {accept : String → Bool} {p q : PortRow} :
    q ∈ relations T accept p ↔
      ∃ d ∈ T.depends, d.port = p.id ∧ accept d.type ∧ T.retrieve d.dependency = some q := by
  simp only [relations, List.mem_filterMap, List.mem_filter, Bool.decide_and,
    Bool.decide_eq_true, Bool.and_eq_true, decide_eq_true_eq]
  exact ⟨fun ⟨d, ⟨hd, hp, ha⟩, hq⟩ => ⟨d, hd, hp, ha, hq⟩,
    fun ⟨d, hd, hp, ha, hq⟩ => ⟨d, ⟨hd, hp, ha⟩, hq⟩⟩

theorem relations_mem_ports {T : Tree} {accept : String → Bool} {p q : PortRow}
    (h : q ∈ relations T accept p) : q ∈ T.ports := by
  obtain ⟨d, _, _, _, hq⟩ := mem_relations.1 h
  exact (Tree.retrieve_mem hq).1

theorem reached_mem_ports {T : Tree} {accept accept' : String → Bool} {p d q : PortRow}
    (hd : d ∈ relations T accept p) (h : ReflTransGen (Edge (relations T accept')) d q) :
    q ∈ T.ports := by
  rcases Relation.ReflTransGen.cases_tail h with rfl | ⟨y, _, hy⟩
  · exact relations_mem_ports hd
  · exact relations_mem_ports hy

theorem unseen_ports (T : Tree) (seen : List PortRow) :
    unseen (fun x : PortRow => x.pkgname) (T.ports.map (·.pkgname)) seen < T.ports.length + 1 := by
  have hsub := (List.filter_sublist (l := T.ports.map (·.pkgname))
    (p := fun k => k ∉ seen.map (·.pkgname))).length_le
  rw [List.length_map] at hsub
  exact Nat.lt_succ_of_le hsub

/-- `q` is reached from `p` by a direct relation and non-test relations after it. -/
def Reaches (T : Tree) (includeTest : Bool) (p q : PortRow) : Prop :=
  ∃ d ∈ relations T (fun type => nonTest type || includeTest) p,
    ReflTransGen (Edge (relations T nonTest)) d q

theorem Reaches.closed {T : Tree} {includeTest : Bool} {p q : PortRow} {S : PortRow → Prop}
    (h : Reaches T includeTest p q)
    (direct : ∀ d ∈ relations T (fun type => nonTest type || includeTest) p, S d)
    (next : ∀ x, S x → ∀ y ∈ relations T nonTest x, S y) : S q := by
  obtain ⟨d, hd, hdq⟩ := h
  induction hdq with
  | refl => exact direct d hd
  | tail _ hyz ih => exact next _ ih _ hyz

section Fetch
variable {T : Tree} {p q : PortRow}

/-- `q` is reached from `p` by a fetch relation and relations of any type after it. -/
def FetchReaches (T : Tree) (p q : PortRow) : Prop :=
  ∃ d ∈ fetchDepends T p, ReflTransGen (Edge (relations T fun _ => true)) d q

theorem FetchReaches.tail {r : PortRow} (h : FetchReaches T p q)
    (hr : r ∈ relations T (fun _ => true) q) : FetchReaches T p r := by
  obtain ⟨d, hd, hdq⟩ := h
  exact ⟨d, hd, hdq.tail hr⟩

theorem FetchReaches.mem_ports (h : FetchReaches T p q) : q ∈ T.ports := by
  obtain ⟨d, hd, hdq⟩ := h
  exact reached_mem_ports hd hdq

/-- One round of the loop in `fetch_depends_closure`. -/
def fetchWalk (T : Tree) (depends : List PortRow) (d : PortRow) : List PortRow :=
  walk (relations T fun _ => true) (·.pkgname) (T.ports.length + 1)
    (relations T (fun _ => true) d) (assign depends d)

theorem fetchDependsClosure_eq (T : Tree) (p : PortRow) :
    fetchDependsClosure T p = closureValues p ((fetchDepends T p).foldl (fetchWalk T) []) := rfl

theorem mem_closureValues {depends : List PortRow} :
    q ∈ closureValues p depends ↔ q ∈ depends ∧ q.pkgname ≠ p.pkgname := by
  simp [closureValues, List.mem_insertionSort]

theorem mem_assign {depends : List PortRow} {d x : PortRow} (h : x ∈ assign depends d) :
    x ∈ depends ∨ x = d := by
  unfold assign at h
  split at h
  · obtain ⟨y, hy, hx⟩ := List.mem_map.1 h
    split at hx
    · exact .inr hx.symm
    · exact .inl (hx ▸ hy)
  · simpa using h

theorem fetchLoop_sound (todo : List PortRow) {depends : List PortRow} (hd : ∀ x ∈ depends, FetchReaches T p x)
    (htodo : ∀ d ∈ todo, d ∈ fetchDepends T p) : ∀ x ∈ todo.foldl (fetchWalk T) depends,
      FetchReaches T p x := by
  induction todo generalizing depends with
  | nil => exact hd
  | cons d todo ih =>
    have hroot : FetchReaches T p d := ⟨d, htodo d (by simp), .refl⟩
    refine ih (fun x hx => ?_) fun e he => htodo e (List.mem_cons_of_mem _ he)
    rcases walk_sound _ _ _ _ _ hx with hassign | ⟨e, he, hex⟩
    · rcases mem_assign hassign with hx | rfl
      · exact hd x hx
      · exact hroot
    · exact ⟨d, htodo d (by simp), .head he hex⟩

theorem mem_fetchDependsClosure (h : q ∈ fetchDependsClosure T p) :
    FetchReaches T p q ∧ q.pkgname ≠ p.pkgname := by
  rw [fetchDependsClosure_eq, mem_closureValues] at h
  exact ⟨fetchLoop_sound _ (by simp) (fun _ hd => hd) q h.1, h.2⟩

section Complete
variable (names : (T.ports.map (·.pkgname)).Nodup)
include names

theorem assign_eq {depends : List PortRow} {d : PortRow} (hd : d ∈ T.ports)
    (hports : ∀ x ∈ depends, x ∈ T.ports) (hseen : Seen (·.pkgname) depends d) :
    assign depends d = depends := by
  rw [assign, if_pos hseen]
  refine (List.map_congr_left fun x hx => ?_).trans (List.map_id _)
  split
  · rename_i hname
    exact List.inj_on_of_nodup_map names hd (hports x hx) hname.symm
  · rfl

theorem fetchWalk_closed {depends : List PortRow} {d : PortRow} (hd : d ∈ T.ports)
    (hports : ∀ x ∈ depends, x ∈ T.ports)
    (hclosed : ∀ x ∈ depends, ∀ y ∈ relations T (fun _ => true) x, Seen (·.pkgname) depends y) :
    depends <+: fetchWalk T depends d ∧ Seen (·.pkgname) (fetchWalk T depends d) d ∧
      ∀ x ∈ fetchWalk T depends d, ∀ y ∈ relations T (fun _ => true) x,
        Seen (·.pkgname) (fetchWalk T depends d) y := by
  have hassign : depends <+: assign depends d ∧ Seen (·.pkgname) (assign depends d) d := by
    by_cases hs : Seen (·.pkgname) depends d
    · rw [assign_eq names hd hports hs]
      exact ⟨List.prefix_refl _, hs⟩
    · rw [assign, if_neg hs]
      exact ⟨List.prefix_append _ _, by simp [Seen]⟩
  obtain ⟨htodo, hfrom⟩ := walk_complete (relations T fun _ => true) (fun x : PortRow => x.pkgname)
    (T.ports.map (·.pkgname)) (T.ports.length + 1) (relations T (fun _ => true) d) (assign depends d)
    (unseen_ports T _) fun e he x hx => List.mem_map.2 ⟨x, reached_mem_ports he hx, rfl⟩
  have hkeeps := walk_keeps (relations T fun _ => true) (fun x : PortRow => x.pkgname)
    (T.ports.length + 1) (relations T (fun _ => true) d) (assign depends d)
  refine ⟨hassign.1.trans hkeeps, hassign.2.mono _ hkeeps, fun x hx y hy => ?_⟩
  by_cases hold : x ∈ assign depends d
  · rcases mem_assign hold with hdep | rfl
    · exact (hclosed x hdep y hy).mono _ (hassign.1.trans hkeeps)
    · exact htodo y hy
  · exact hfrom x hx hold y hy

theorem fetchLoop_complete {todo : List PortRow} (depends : List PortRow)
    (hports : ∀ x ∈ depends, FetchReaches T p x)
    (hclosed : ∀ x ∈ depends, ∀ y ∈ relations T (fun _ => true) x, Seen (·.pkgname) depends y)
    (htodo : ∀ d ∈ todo, d ∈ fetchDepends T p) :
    (∀ x, Seen (·.pkgname) depends x ∨ x ∈ todo →
      Seen (·.pkgname) (todo.foldl (fetchWalk T) depends) x) ∧
    ∀ x ∈ todo.foldl (fetchWalk T) depends, ∀ y ∈ relations T (fun _ => true) x,
      Seen (·.pkgname) (todo.foldl (fetchWalk T) depends) y := by
  induction todo generalizing depends with
  | nil => exact ⟨fun x hx => hx.resolve_right (by simp), hclosed⟩
  | cons d todo ih =>
    have hd : d ∈ T.ports := relations_mem_ports (htodo d (by simp))
    obtain ⟨hkeeps, hseen, hround⟩ :=
      fetchWalk_closed names hd (fun x hx => (hports x hx).mem_ports) hclosed
    have hround' : ∀ x ∈ fetchWalk T depends d, FetchReaches T p x :=
      fetchLoop_sound [d] hports fun e he => by
        rw [List.mem_singleton] at he
        exact he ▸ htodo d (by simp)
    obtain ⟨hall, hlast⟩ := ih _ hround' hround fun e he => htodo e (List.mem_cons_of_mem _ he)
    refine ⟨fun x hx => hall x ?_, hlast⟩
    rcases hx with hx | hx
    · exact .inl (hx.mono _ hkeeps)
    · rcases List.mem_cons.1 hx with rfl | hx
      · exact .inl hseen
      · exact .inr hx

theorem fetchDependsClosure_complete (h : FetchReaches T p q) (hne : q.pkgname ≠ p.pkgname) :
    q ∈ fetchDependsClosure T p := by
  rw [fetchDependsClosure_eq, mem_closureValues]
  refine ⟨?_, hne⟩
  obtain ⟨hall, hclosed⟩ := fetchLoop_complete names (p := p) [] (by simp) (by simp)
    fun _ hd => hd
  have hmem : ∀ x, FetchReaches T p x →
      Seen (·.pkgname) ((fetchDepends T p).foldl (fetchWalk T) []) x →
        x ∈ (fetchDepends T p).foldl (fetchWalk T) [] := by
    intro x hx hs
    obtain ⟨y, hy, hyx⟩ := List.mem_map.1 hs
    have hyports := (fetchLoop_sound _ (by simp) (fun _ hd => hd) y hy).mem_ports
    exact List.inj_on_of_nodup_map names hyports hx.mem_ports hyx ▸ hy
  clear hne
  obtain ⟨d, hd, hdq⟩ := h
  induction hdq with
  | refl => exact hmem d ⟨d, hd, .refl⟩ (hall d (.inr hd))
  | @tail y z hdy hyz ih => exact hmem z ⟨d, hd, hdy.tail hyz⟩ (hclosed y ih z hyz)

end Complete
end Fetch
end Mports.MagusDepends
