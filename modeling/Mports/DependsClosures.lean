import Mports.MagusDepends

set_option autoImplicit false

/-!
The build and test closures over any contents of the ports and depends tables that
schema.sql allows: a row of `depends` may join ports of different runs, and nothing
keeps two ports from having the same pkgname.
-/
namespace Mports.DependsClosures
open KeyedWalk MagusTables MagusDepends
open Relation (ReflTransGen)

structure PortGraph where
  ports : List PortRow
  depends : List Depend
  ports_key : (ports.map (·.id)).Nodup
  depends_key : depends.Nodup
  depends_refs : ∀ d ∈ depends, d.port ∈ ports.map (·.id) ∧ d.dependency ∈ ports.map (·.id)

def direct (includeTest : Bool) (type : String) : Bool := nonTest type || includeTest

namespace PortGraph

def retrieve (G : PortGraph) (id : PortId) : Option PortRow := G.ports.find? fun p => p.id = id

def relations (G : PortGraph) (accept : String → Bool) (p : PortRow) : List PortRow :=
  (G.depends.filter fun d => d.port = p.id ∧ accept d.type).filterMap fun d =>
    G.retrieve d.dependency

def walkPhaseDepends (G : PortGraph) (p : PortRow) (includeTest : Bool) : List PortRow :=
  walk (G.relations nonTest) (·.pkgname) (G.ports.length + 1)
    (G.relations (direct includeTest) p) []

def phaseDependsClosure (G : PortGraph) (p : PortRow) (includeTest : Bool) : List PortRow :=
  closureValues p (G.walkPhaseDepends p includeTest)

def buildDependsClosure (G : PortGraph) (p : PortRow) : List PortRow :=
  G.phaseDependsClosure p false

/-- Some row of `depends` with an accepted type leads from `p` to `q`. -/
def Needs (G : PortGraph) (accept : String → Prop) (p q : PortRow) : Prop :=
  q ∈ G.ports ∧ ∃ d ∈ G.depends, d.port = p.id ∧ d.dependency = q.id ∧ accept d.type

def Reaches (G : PortGraph) (includeTest : Bool) (p q : PortRow) : Prop :=
  ∃ d, G.Needs (fun type => type ≠ "test" ∨ includeTest) p d ∧
    ReflTransGen (G.Needs (· ≠ "test")) d q

/-- The walk ends, and its values but `p` are the ports reached, each once. -/
structure Exact (G : PortGraph) (p : PortRow) (includeTest : Bool) : Prop where
  ends : Walks (G.relations nonTest) (·.pkgname) (G.relations (direct includeTest) p) []
    (G.walkPhaseDepends p includeTest)
  once : (G.phaseDependsClosure p includeTest).Nodup
  precise : ∀ q, q ∈ G.phaseDependsClosure p includeTest ↔ q ≠ p ∧ G.Reaches includeTest p q

/-- No two ports among `p` and those it reaches share a pkgname. -/
def Distinct (G : PortGraph) (p : PortRow) (includeTest : Bool) : Prop :=
  ∀ q r, q = p ∨ G.Reaches includeTest p q → r = p ∨ G.Reaches includeTest p r →
    q.pkgname = r.pkgname → q = r

end PortGraph

def treeGraph (T : Tree) : PortGraph where
  ports := T.ports
  depends := T.depends
  ports_key := T.ports_key
  depends_key := T.depends_key
  depends_refs := by
    intro d hd
    obtain ⟨p, hp, q, hq, hpd, hqd, _⟩ := T.depends_run d hd
    exact ⟨List.mem_map.2 ⟨p, hp, hpd⟩, List.mem_map.2 ⟨q, hq, hqd⟩⟩

section Walk
variable {G : PortGraph} {p q : PortRow} {includeTest : Bool}

theorem retrieve_eq_some {id : PortId} : G.retrieve id = some q ↔ q ∈ G.ports ∧ q.id = id := by
  constructor
  · intro h
    exact ⟨List.mem_of_find?_eq_some h, by simpa using List.find?_some h⟩
  · rintro ⟨hq, rfl⟩
    obtain ⟨r, hr⟩ : ∃ r, G.retrieve q.id = some r := by
      refine Option.isSome_iff_exists.1 (List.find?_isSome.2 ⟨q, hq, by simp⟩)
    have hid : r.id = q.id := by simpa using List.find?_some hr
    have hrq : r = q := List.inj_on_of_nodup_map G.ports_key (List.mem_of_find?_eq_some hr) hq hid
    exact hrq ▸ hr

theorem mem_relations_iff {accept : String → Bool} :
    q ∈ G.relations accept p ↔ G.Needs (fun type => accept type) p q := by
  simp only [PortGraph.relations, List.mem_filterMap, List.mem_filter, retrieve_eq_some,
    PortGraph.Needs, Bool.decide_and, Bool.decide_eq_true, Bool.and_eq_true, decide_eq_true_eq]
  constructor
  · rintro ⟨d, ⟨hd, hp, ha⟩, hq, hid⟩
    exact ⟨hq, d, hd, hp, hid.symm, ha⟩
  · rintro ⟨hq, d, hd, hp, hid, ha⟩
    exact ⟨d, ⟨hd, hp, ha⟩, hq, hid.symm⟩

theorem edge_relations : Edge (G.relations nonTest) = G.Needs (· ≠ "test") := by
  funext x y
  simp [Edge, mem_relations_iff, nonTest]

theorem mem_direct {d : PortRow} : d ∈ G.relations (direct includeTest) p ↔
    G.Needs (fun type => type ≠ "test" ∨ includeTest) p d := by
  simp [mem_relations_iff, direct, nonTest]

theorem Reaches.mem_ports (h : G.Reaches includeTest p q) : q ∈ G.ports := by
  obtain ⟨d, hd, hdq⟩ := h
  induction hdq with
  | refl => exact hd.1
  | tail _ hyz _ => exact hyz.1

theorem reaches_of_mem (h : q ∈ G.walkPhaseDepends p includeTest) : G.Reaches includeTest p q := by
  rcases walk_sound _ _ _ _ _ h with hnil | ⟨d, hd, hdq⟩
  · simp at hnil
  · exact ⟨d, mem_direct.1 hd, edge_relations ▸ hdq⟩

theorem reached_names : ∀ d ∈ G.relations (direct includeTest) p,
    ∀ x, ReflTransGen (Edge (G.relations nonTest)) d x → x.pkgname ∈ G.ports.map (·.pkgname) := by
  intro d hd x hx
  exact List.mem_map.2 ⟨x, Reaches.mem_ports ⟨d, mem_direct.1 hd, edge_relations ▸ hx⟩, rfl⟩

theorem unseen_names (G : PortGraph) :
    unseen (fun x : PortRow => x.pkgname) (G.ports.map (·.pkgname)) [] < G.ports.length + 1 := by
  have hle := unseen_le (fun x : PortRow => x.pkgname) (G.ports.map (·.pkgname)) []
  rw [List.length_map] at hle
  omega

theorem walkPhaseDepends_ends (G : PortGraph) (p : PortRow) (includeTest : Bool) :
    Walks (G.relations nonTest) (·.pkgname) (G.relations (direct includeTest) p) []
      (G.walkPhaseDepends p includeTest) :=
  walk_walks _ _ _ _ _ _ (unseen_names G) reached_names

theorem walkPhaseDepends_names (G : PortGraph) (p : PortRow) (includeTest : Bool) :
    ((G.walkPhaseDepends p includeTest).map (·.pkgname)).Nodup :=
  walk_nodup _ _ _ _ List.nodup_nil

theorem mem_walk_of_seen (distinct : G.Distinct p includeTest) (hq : G.Reaches includeTest p q)
    (hs : Seen (·.pkgname) (G.walkPhaseDepends p includeTest) q) :
    q ∈ G.walkPhaseDepends p includeTest := by
  obtain ⟨y, hy, hname⟩ := List.mem_map.1 hs
  have hyq : y = q := distinct y q (.inr (reaches_of_mem hy)) (.inr hq) hname
  exact hyq ▸ hy

theorem mem_walk_of_reaches (distinct : G.Distinct p includeTest) (h : G.Reaches includeTest p q) :
    q ∈ G.walkPhaseDepends p includeTest := by
  obtain ⟨htodo, hclosed⟩ := walk_complete (G.relations nonTest) (fun x : PortRow => x.pkgname)
    (G.ports.map (·.pkgname)) (G.ports.length + 1) _ [] (unseen_names G) reached_names
  obtain ⟨d, hd, hdq⟩ := h
  induction hdq with
  | refl => exact mem_walk_of_seen distinct ⟨d, hd, .refl⟩ (htodo d (mem_direct.2 hd))
  | @tail y z hdy hyz ih =>
    have hstep : z ∈ G.relations nonTest y := by
      rw [mem_relations_iff]
      simpa [nonTest] using hyz
    exact mem_walk_of_seen distinct ⟨d, hd, hdy.tail hyz⟩ (hclosed y (ih htodo hclosed) (by simp) z hstep)

theorem mem_phaseDependsClosure_iff : q ∈ G.phaseDependsClosure p includeTest ↔
    q ∈ G.walkPhaseDepends p includeTest ∧ q.pkgname ≠ p.pkgname := mem_closureValues

theorem treeGraph_reaches {T : Tree} : (treeGraph T).Reaches includeTest p q ↔ Reaches T includeTest p q := by
  change _ ↔ ∃ d ∈ (treeGraph T).relations (direct includeTest) p, ReflTransGen (Edge ((treeGraph T).relations nonTest)) d q
  rw [edge_relations]
  exact exists_congr fun d => and_congr_left fun _ => mem_direct.symm

theorem mem_phaseDependsClosure {T : Tree} (h : q ∈ phaseDependsClosure T p includeTest) :
    Reaches T includeTest p q ∧ q.pkgname ≠ p.pkgname := by
  change q ∈ (treeGraph T).phaseDependsClosure p includeTest at h
  obtain ⟨hq, hname⟩ := mem_phaseDependsClosure_iff.1 h
  exact ⟨treeGraph_reaches.1 (reaches_of_mem hq), hname⟩

theorem phaseDependsClosure_nodup : (G.phaseDependsClosure p includeTest).Nodup :=
  (List.perm_insertionSort _ _).nodup_iff.2
    ((List.Nodup.of_map _ (walkPhaseDepends_names G p includeTest)).filter _)

/-- The table of a walk is keyed by pkgname, and so the closures are exact as far as
pkgnames tell ports apart. -/
theorem phaseDependsClosure_exact_iff (G : PortGraph) (p : PortRow) (includeTest : Bool) :
    G.Exact p includeTest ↔ G.Distinct p includeTest := by
  constructor
  · intro exact
    -- a reached port other than `p` is a value of the walk, under a name that is not `p`'s
    have hvalue : ∀ q, q ≠ p → G.Reaches includeTest p q →
        q ∈ G.walkPhaseDepends p includeTest ∧ q.pkgname ≠ p.pkgname := fun q hne hq =>
      mem_phaseDependsClosure_iff.1 ((exact.precise q).2 ⟨hne, hq⟩)
    intro q r hq hr hname
    by_cases hqp : q = p <;> by_cases hrp : r = p
    · exact hqp.trans hrp.symm
    · exact absurd (hname.symm.trans (congrArg _ hqp)) (hvalue r hrp (hr.resolve_left hrp)).2
    · exact absurd (hname.trans (congrArg _ hrp)) (hvalue q hqp (hq.resolve_left hqp)).2
    · exact List.inj_on_of_nodup_map (walkPhaseDepends_names G p includeTest)
        (hvalue q hqp (hq.resolve_left hqp)).1 (hvalue r hrp (hr.resolve_left hrp)).1 hname
  · intro distinct
    refine ⟨walkPhaseDepends_ends G p includeTest, phaseDependsClosure_nodup, fun q => ?_⟩
    rw [mem_phaseDependsClosure_iff]
    constructor
    · rintro ⟨hq, hname⟩
      exact ⟨fun he => hname (congrArg _ he), reaches_of_mem hq⟩
    · rintro ⟨hne, hq⟩
      exact ⟨mem_walk_of_reaches distinct hq, fun hname => hne (distinct q p (.inr hq) (.inl rfl) hname)⟩

/-- A port that needs two flavors of one library, which have the pkgname of the library. -/
def flavored : PortGraph where
  ports := [⟨1, 1, "www/site", "1.0", "site", none⟩, ⟨2, 1, "devel/lib", "2.0", "lib", some "py39"⟩,
    ⟨3, 1, "devel/lib", "2.0", "lib", some "py311"⟩]
  depends := [⟨1, 2, "build"⟩, ⟨1, 3, "run"⟩]
  ports_key := by decide
  depends_key := by decide
  depends_refs := by decide

theorem flavored_missing :
    (flavored.Reaches false ⟨1, 1, "www/site", "1.0", "site", none⟩
      ⟨3, 1, "devel/lib", "2.0", "lib", some "py311"⟩ ∧
    ⟨3, 1, "devel/lib", "2.0", "lib", some "py311"⟩ ∉
      flavored.buildDependsClosure ⟨1, 1, "www/site", "1.0", "site", none⟩) ∧
    ¬ flavored.Exact ⟨1, 1, "www/site", "1.0", "site", none⟩ false := by
  have hreach : flavored.Reaches false ⟨1, 1, "www/site", "1.0", "site", none⟩
      ⟨3, 1, "devel/lib", "2.0", "lib", some "py311"⟩ := by
    refine ⟨_, ⟨?_, ⟨1, 3, "run"⟩, ?_, rfl, rfl, .inl (by decide)⟩, .refl⟩ <;> simp [flavored]
  have hmiss : ⟨3, 1, "devel/lib", "2.0", "lib", some "py311"⟩ ∉
      flavored.buildDependsClosure ⟨1, 1, "www/site", "1.0", "site", none⟩ := by decide
  exact ⟨⟨hreach, hmiss⟩, fun exact => hmiss ((exact.precise _).2 ⟨by decide, hreach⟩)⟩

end Walk
end Mports.DependsClosures
