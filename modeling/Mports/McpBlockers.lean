import Mathlib.Data.List.Sort
import Mports.BoundedSearch
import Mports.MagusClosedResults
import Mports.MagusFinishedRuns
import Mports.MagusProgress

set_option autoImplicit false

namespace Mports.McpBlockers
open MagusTables MagusDepends MagusClosedResults MagusProgress MagusCluster MagusPackages
open MagusFinishedRuns BoundedSearch
open LabelledRuns (Run reached_of_history)
open Relation (TransGen)

section Tool

/-- The arguments that `is_number` accepts, cut off by `int`. -/
structure Args where
  portId : Option ℤ
  maxDepth : Option ℤ := none
  limit : Option ℤ := none
  deriving DecidableEq, Repr

def portFromArgs (db : Db) (args : Args) : Except String PortRow :=
  match args.portId with
  | none => .error "Error: 'port_id' must be a valid integer."
  | some portId =>
    match portId.toNat?.bind db.tree.retrieve with
    | none => .error ("Port ID " ++ toString portId ++ " not found.")
    | some port => .ok port

def boundedInt (value : Option ℤ) (default min max : ℤ) : ℤ :=
  let n := value.getD default
  let n := if n < min then min else n
  if max < n then max else n

/-- A row of the SELECT on `depends` and `ports`. -/
structure Dep where
  type : String
  port : PortRow
  status : Status
  deriving DecidableEq, Repr

/-- `ORDER BY d.type, p.name`. -/
def Before (d e : Dep) : Prop := d.type < e.type ∨ d.type = e.type ∧ d.port.name ≤ e.port.name

instance (d e : Dep) : Decidable (Before d e) := inferInstanceAs (Decidable (_ ∨ _))

variable (db : Db)

def deps (accept : String → Bool) (p : PortId) : List Dep :=
  ((db.tree.depends.filter fun d => d.port = p ∧ accept d.type).filterMap fun d =>
    (db.tree.retrieve d.dependency).map fun q => ⟨d.type, q, db.status q.id⟩).insertionSort Before

def depGraph (accept : String → Bool) : BoundedSearch.Graph PortId Dep where
  edges := deps db accept
  target := fun d => d.port.id
  enter := fun p => db.status p = .untested
  report := fun p => db.status p = .fail ∨ db.status p = .skip

def extendPath (path : String) (d : Dep) : String := path ++ " -> " ++ d.port.name

abbrev Blocker := Found Dep String

structure Report where
  port : PortRow
  status : Status
  maxDepth : ℕ
  blockers : List Blocker

def dependencyBlockers (port : PortRow) (maxDepth limit : ℕ) : Option (List Blocker) :=
  (search (depGraph db fun _ => true) extendPath maxDepth limit (db.tree.ports.length + 1)
    (start port.id port.name)).map State.found

def toolGetDependencyBlockers (args : Args) : Except String (Option Report) :=
  (portFromArgs db args).map fun port =>
    let maxDepth := (boundedInt args.maxDepth 8 1 20).toNat
    let limit := (boundedInt args.limit 50 1 200).toNat
    (dependencyBlockers db port maxDepth limit).map fun blockers =>
      ⟨port, db.status port.id, maxDepth, blockers⟩

end Tool

section Text

/-- `%-35s` and the like. -/
def padded (width : ℕ) (text : String) : String :=
  text ++ String.ofList (List.replicate (width - text.length) ' ')

def Report.header (r : Report) : String :=
  "Dependency blockers for " ++ r.port.name ++ "\n  port_id=" ++ toString r.port.id ++ "  status=" ++
    r.status.text ++ "  run=" ++ toString r.port.run ++ "  max_depth=" ++ toString r.maxDepth ++ "\n"

def blockerText (b : Blocker) : String :=
  "  depth=" ++ padded 2 (toString b.depth) ++ " [" ++ padded 8 b.edge.type ++ "] " ++
    padded 35 b.edge.port.name ++ " status=" ++ padded 5 b.edge.status.text ++ " port_id=" ++
    toString b.edge.port.id ++ " version=" ++ b.edge.port.version ++
    (match b.edge.port.flavor with
      | none => ""
      | some flavor => if flavor = "" ∨ flavor = "0" then "" else " flavor=" ++ flavor) ++ "\n" ++
    "    path: " ++ b.path ++ "\n"

def Report.text (r : Report) : String :=
  if r.blockers = [] then
    r.header ++ "\nNo failed or skipped dependencies found within the requested depth."
  else
    r.header ++ "\nFound " ++ toString r.blockers.length ++ " blocker" ++
      (if r.blockers.length = 1 then "" else "s") ++ ":\n" ++ String.join (r.blockers.map blockerText)

end Text

section Paths
variable {db : Db} {accept : String → Bool} {p : PortId}

theorem mem_deps {x : PortId} {d : Dep} : d ∈ deps db accept x ↔
    ∃ e ∈ db.tree.depends, e.port = x ∧ accept e.type = true ∧ e.type = d.type ∧
      db.tree.retrieve e.dependency = some d.port ∧ d.status = db.status d.port.id := by
  simp only [deps, List.mem_insertionSort, List.mem_filterMap, List.mem_filter, decide_eq_true_eq,
    Option.map_eq_some_iff]
  constructor
  · rintro ⟨e, ⟨he, hport, htype⟩, q, hq, rfl⟩
    exact ⟨e, he, hport, htype, rfl, hq, rfl⟩
  · rintro ⟨e, he, hport, htype, hd, hq, hstatus⟩
    refine ⟨e, ⟨he, hport, htype⟩, d.port, hq, ?_⟩
    cases d
    simp_all

theorem edge_exists (accept : String → Bool) {d : Depend} (hd : d ∈ db.tree.depends) (htype : accept d.type = true) :
    ∃ e ∈ deps db accept d.port, e.port.id = d.dependency ∧ e.type = d.type := by
  obtain ⟨_, _, q, hq, _, hqid, _⟩ := db.tree.depends_run d hd
  have hq' : db.tree.retrieve d.dependency = some q := hqid ▸ Tree.retrieve_of_mem hq
  exact ⟨⟨d.type, q, db.status q.id⟩, mem_deps.2 ⟨d, hd, rfl, htype, rfl, hq', rfl⟩, hqid, rfl⟩

theorem edge_depends {x : PortId} {e : Dep} (he : e ∈ deps db accept x) :
    ∃ d ∈ db.tree.depends, d.port = x ∧ d.dependency = e.port.id ∧ accept d.type = true ∧ d.type = e.type := by
  obtain ⟨d, hd, hport, htype, hsame, hq, _⟩ := mem_deps.1 he
  exact ⟨d, hd, hport, (Tree.retrieve_mem hq).2.symm, htype, hsame⟩

def Open (db : Db) (p x : PortId) : Prop := x = p ∨ db.status x = .untested

theorem enter_iff {x : PortId} : x = p ∨ (depGraph db accept).enter x = true ↔ Open db p x := by
  simp [depGraph, Open]

theorem leads_all {n : ℕ} {x : PortId} (h : Leads (depGraph db accept) p n x) :
    Leads (depGraph db fun _ => true) p n x := by
  induction h with
  | start => exact .start
  | @next n x e _ enter edge ih =>
    obtain ⟨d, hd, hport, hdep, _, _⟩ := edge_depends edge
    obtain ⟨e', he', hid, _⟩ := edge_exists (fun _ => true) hd rfl
    have hnext := Leads.next ih enter (hport ▸ he')
    simp only [depGraph, hid, hdep] at hnext
    exact hnext

theorem leads_split {n : ℕ} {x : PortId} (h : Leads (depGraph db fun _ => true) p n x) :
    Leads (depGraph db nonTest) p n x ∨ ∃ m y, Leads (depGraph db nonTest) p m y ∧ Open db p y ∧
      ∃ d ∈ db.tree.depends, d.port = y ∧ d.type = "test" := by
  induction h with
  | start => exact .inl .start
  | @next n x e _ enter edge ih =>
    rcases ih with ih | ih
    · have hrow : e ∈ deps db (fun _ => true) x := edge
      obtain ⟨d, hd, hport, hdep, _, _⟩ := edge_depends hrow
      by_cases htest : d.type = "test"
      · exact .inr ⟨n, x, ih, enter_iff.1 enter, d, hd, hport, htest⟩
      · obtain ⟨e', he', hid, _⟩ := edge_exists nonTest hd (by simpa [nonTest] using htest)
        have hnext := Leads.next ih enter (hport ▸ he')
        simp only [depGraph, hid, hdep] at hnext
        exact .inl hnext
    · exact .inr ih

theorem leads_chain {n : ℕ} {x : PortId} (h : Leads (depGraph db nonTest) p n x) :
    ∃ path : List PortId, List.IsChain (Needs db.tree) (p :: path) ∧ path.length = n ∧
      (p :: path).getLast? = some x := by
  induction h with
  | start => exact ⟨[], by simp, rfl, rfl⟩
  | @next n x e _ enter edge ih =>
    obtain ⟨path, hchain, hlength, hlast⟩ := ih
    obtain ⟨d, hd, hport, hdep, htype, _⟩ := edge_depends edge
    refine ⟨path ++ [e.port.id], ?_, by simp [hlength], ?_⟩
    · rw [← List.cons_append]
      refine List.isChain_append.2 ⟨hchain, by simp, fun y hy z hz => ?_⟩
      rw [hlast, Option.mem_some_iff] at hy
      simp only [List.head?_cons, Option.mem_some_iff] at hz
      subst hy hz
      exact ⟨d, hd, hport, hdep, htype⟩
    · rw [← List.cons_append, List.getLast?_append]
      rfl

theorem leads_needs {n : ℕ} {x : PortId} (h : Leads (depGraph db nonTest) p n x) :
    x = p ∨ TransGen (Needs db.tree) p x := by
  induction h with
  | start => exact .inl rfl
  | next _ _ edge ih =>
    obtain ⟨d, hd, hport, hdep, htype, _⟩ := edge_depends edge
    have hneeds : Needs db.tree _ _ := ⟨d, hd, hport, hdep, htype⟩
    rcases ih with rfl | ih
    · exact .inr (.single hneeds)
    · exact .inr (ih.tail hneeds)

theorem blockers_some (db : Db) (port : PortRow) (maxDepth limit : ℕ) :
    ∃ t, search (depGraph db fun _ => true) extendPath maxDepth limit (db.tree.ports.length + 1)
      (start port.id port.name) = some t := by
  refine search_total (db.tree.ports.map (·.id)) (fun x e he => ?_) ?_
  · have hrow : e ∈ deps db (fun _ => true) x := he
    obtain ⟨_, _, _, _, _, hq, _⟩ := mem_deps.1 hrow
    exact List.mem_map_of_mem (Tree.retrieve_mem hq).1
  · have hunseen := KeyedWalk.unseen_le id (db.tree.ports.map (·.id)) [port.id]
    rw [List.length_map] at hunseen
    simp only [size, start, List.length_singleton]
    omega

theorem boundedInt_ge (value : Option ℤ) (default : ℤ) {min max : ℤ} (h : min ≤ max) :
    min ≤ boundedInt value default min max := by
  unfold boundedInt
  dsimp only
  split <;> split <;> omega

end Paths

section Blockers
variable {db : Db}

/-- The port failed or was skipped, `n` dependencies of the accepted types away. -/
def Failing (db : Db) (accept : String → Bool) (p : PortId) (n : ℕ) (x : PortId) : Prop :=
  Leads (depGraph db accept) p n x ∧ (db.status x = .fail ∨ db.status x = .skip)

def Blocked (db : Db) (p : PortId) : Prop :=
  ∃ q, TransGen (Needs db.tree) p q ∧ (db.status q = .fail ∨ db.status q = .skip ∨ db.status q = .internal)

theorem Blocked.of_leads {p x : PortId} {n : ℕ} (huntested : db.status p = .untested)
    (h : Leads (depGraph db nonTest) p n x)
    (hbad : db.status x = .fail ∨ db.status x = .skip ∨ db.status x = .internal) : Blocked db p := by
  rcases leads_needs h with rfl | hneeds
  · simp [huntested] at hbad
  · exact ⟨x, hneeds, hbad⟩

theorem good_below (hclosed : Closed db) {x y : PortId} (hneeds : TransGen (Needs db.tree) x y)
    (hgood : (db.status x).Good) : (db.status y).Good := by
  have hstep : ∀ a b, Needs db.tree a b → (db.status a).Good → (db.status b).Good := by
    rintro a b ⟨d, hd, hport, hdep, htype⟩ ha
    subst hport hdep
    exact hclosed d hd htype ha
  induction hneeds with
  | single h => exact hstep _ _ h hgood
  | tail _ h ih => exact hstep _ _ h ih

/-- Where packages have packages of all they need, what blocks a port is found over
untested ports alone. -/
theorem blocked_iff {p : PortId} (huntested : db.status p = .untested) (hclosed : Closed db)
    (plain : ∀ q, db.status q ≠ .running) : Blocked db p ↔ ∃ n x, Leads (depGraph db nonTest) p n x ∧
      (db.status x = .fail ∨ db.status x = .skip ∨ db.status x = .internal) := by
  constructor
  · rintro ⟨q, hneeds, hbad⟩
    have hnot : ¬ (db.status q).Good := by
      intro hgood
      rcases hgood with h | h <;> simp [h] at hbad
    have hnext : ∀ n x y, Leads (depGraph db nonTest) p n x → Open db p x → Needs db.tree x y →
        Leads (depGraph db nonTest) p (n + 1) y := by
      rintro n x y hx hopen ⟨d, hd, hport, hdep, htype⟩
      obtain ⟨e, he, hid, _⟩ := edge_exists nonTest hd htype
      have hnext := Leads.next hx (enter_iff.2 hopen) (hport ▸ he)
      simp only [depGraph, hid, hdep] at hnext
      exact hnext
    have hpath : ∀ x, TransGen (Needs db.tree) x q → ∀ n, Leads (depGraph db nonTest) p n x →
        Open db p x → ∃ n x, Leads (depGraph db nonTest) p n x ∧
          (db.status x = .fail ∨ db.status x = .skip ∨ db.status x = .internal) := by
      intro x h
      induction h using TransGen.head_induction_on with
      | single h => exact fun n hx hopen => ⟨n + 1, q, hnext n _ q hx hopen h, hbad⟩
      | @head x y h hrest ih =>
        intro n hx hopen
        have hy := hnext n x y hx hopen h
        -- the first port on the way that is not untested ends the search
        cases hst : db.status y with
        | untested => exact ih (n + 1) hy (.inr hst)
        | running => exact absurd hst (plain y)
        | pass | warn => exact absurd (good_below hclosed hrest (by simp [hst, Status.Good])) hnot
        | fail | skip | internal => exact ⟨n + 1, y, hy, by simp [hst]⟩
    exact hpath p hneeds 0 .start (.inl rfl)
  · rintro ⟨n, x, hx, hbad⟩
    exact .of_leads huntested hx hbad

/-- Which ports the report has a blocker for. -/
structure Explained (db : Db) (p : PortId) (r : Report) : Prop where
  listed : r.blockers ≠ [] ↔ ∃ n ≤ r.maxDepth, ∃ x, Failing db (fun _ => true) p n x
  complete : (∀ path : List PortId, List.IsChain (Needs db.tree) (p :: path) → path.length ≤ r.maxDepth) →
    (∃ n x, Failing db nonTest p n x) → r.blockers ≠ []
  sound : r.blockers ≠ [] → Blocked db p ∨ ∃ m y, Leads (depGraph db nonTest) p m y ∧ Open db p y ∧
    ∃ d ∈ db.tree.depends, d.port = y ∧ d.type = "test"
  missed : Closed db → (∀ q, db.status q ≠ .running) → Blocked db p →
    (∃ n x, Failing db nonTest p n x) ∨
      ∃ n x, Leads (depGraph db nonTest) p n x ∧ db.status x = .internal

/-- In every state of the tables, the tool lists a blocker for an untested port exactly
when dependencies over untested ports lead to a failed or skipped port within the depth.
Where no path of non-test dependencies is longer, that is so for every such port on one;
and where a blocker is listed, the port is blocked or a test dependency is on the way.
Where packages have packages of all they need, only broken down ports are passed over. -/
theorem blockers_explained {args : Args} {port : PortRow} (hport : portFromArgs db args = .ok port)
    (huntested : db.status port.id = .untested) :
    ∃ r, toolGetDependencyBlockers db args = .ok (some r) ∧ Explained db port.id r := by
  obtain ⟨t, ht⟩ := blockers_some db port (boundedInt args.maxDepth 8 1 20).toNat
    (boundedInt args.limit 50 1 200).toNat
  have hlimit : 0 < (boundedInt args.limit 50 1 200).toNat := by
    have := boundedInt_ge args.limit 50 (show (1 : ℤ) ≤ 200 by decide)
    omega
  have hlisted : t.found ≠ [] ↔ ∃ n ≤ (boundedInt args.maxDepth 8 1 20).toNat, ∃ x,
      Failing db (fun _ => true) port.id n x := by
    rw [search_reports ht hlimit]
    constructor
    · rintro ⟨n, hn, x, hx, _, hreport⟩
      exact ⟨n, hn, x, hx, by simpa [depGraph] using hreport⟩
    · rintro ⟨n, hn, x, hx, hbad⟩
      refine ⟨n, hn, x, hx, ?_, by simpa [depGraph] using hbad⟩
      intro hroot
      simp [hroot, huntested] at hbad
  refine ⟨⟨port, db.status port.id, (boundedInt args.maxDepth 8 1 20).toNat, t.found⟩, ?_, hlisted, ?_, ?_, ?_⟩
  · simp [toolGetDependencyBlockers, dependencyBlockers, hport, ht, Except.map]
  · rintro hshort ⟨n, x, hx, hbad⟩
    obtain ⟨path, hchain, hlength, _⟩ := leads_chain hx
    exact hlisted.2 ⟨n, hlength ▸ hshort path hchain, x, leads_all hx, hbad⟩
  · intro hfound
    obtain ⟨n, _, x, hx, hbad⟩ := hlisted.1 hfound
    rcases leads_split hx with hx | htest
    · exact .inl (.of_leads huntested hx (hbad.imp_right .inl))
    · exact .inr htest
  · intro hclosed plain hblocked
    obtain ⟨n, x, hx, hbad | hbad | hbad⟩ := (blocked_iff huntested hclosed plain).1 hblocked
    · exact .inl ⟨n, x, hx, .inl hbad⟩
    · exact .inl ⟨n, x, hx, .inr hbad⟩
    · exact .inr ⟨n, x, hx, hbad⟩

end Blockers

section Samples

def brokenDown : List Event :=
  taken 1 samplePort .build 30 ++ calls 30 4 ++ [.call 30 (.fail "Couldn't create root\n")] ++
    calls 30 4 ++ released 30

def failedBuild : List Event :=
  taken 1 samplePort .build 30 ++ calls 30 7 ++ [.fork 30 40, .call 40 .done, .call 40 (.results { summary := .fail })] ++
    calls 40 3 ++ [.exit 40, .waited 30] ++ calls 30 4 ++ released 30

def testChainDb : Db :=
  { chainDb with
    tree := ⟨[samplePort, sampleDependent], [⟨1, 0, "test"⟩], chain_key, by simp,
      by simp [samplePort, sampleDependent]⟩ }

def lists (db : Db) (args : Args) : Option Bool :=
  match toolGetDependencyBlockers db args with
  | .ok (some r) => some !r.blockers.isEmpty
  | _ => none

theorem chain_needs {T : Tree} (hdepends : T.depends = [⟨1, 0, "lib"⟩]) {p q : PortId} (h : Needs T p q) :
    p = 1 ∧ q = 0 := by
  obtain ⟨d, hd, rfl, rfl, _⟩ := h
  rw [hdepends, List.mem_singleton] at hd
  subst hd
  exact ⟨rfl, rfl⟩

theorem test_needs {T : Tree} (hdepends : T.depends = [⟨1, 0, "test"⟩]) {p q : PortId} : ¬ Needs T p q := by
  rintro ⟨d, hd, -, -, htype⟩
  rw [hdepends, List.mem_singleton] at hd
  subst hd
  exact absurd htype (by decide)

/-- A run without resets comes to such tables, with no lock left and the second port untested. -/
def Comes (db : Db) (P : Db → Prop) : Prop :=
  ∃ h c, Run Cluster.Step (Cluster.start db) h c ∧ (∀ x ∈ h, Ordinary 1 x.1 x.2) ∧
    (∀ row ∈ c.db.tree.ports, ∀ ph, c.db.lock row.id ph = none) ∧ c.db.status 1 = .untested ∧
      (∀ path : List PortId, List.IsChain (Needs c.db.tree) (1 :: path) → path.length ≤ 8) ∧ P c.db

theorem internal_unlisted : Comes chainDb fun db => Blocked db 1 ∧ lists db { portId := some 1 } = some false := by
  obtain ⟨h, c, reached, hf⟩ := reached_of_history Cluster.next (s := Cluster.start chainDb)
    (w := brokenDown) (f := fun x => decide (∀ y ∈ x.1, Ordinary 1 y.1 y.2) &&
      decide (∀ row ∈ x.2.db.tree.ports, ∀ ph ∈ Phase.names, x.2.db.lock row.id ph = none) &&
      decide (x.2.db.tree.depends = [⟨1, 0, "lib"⟩]) && decide (x.2.db.status 1 = .untested) &&
      decide (x.2.db.status 0 = .internal) && decide (lists x.2.db { portId := some 1 } = some false)) (by decide +kernel)
  simp only [Bool.and_eq_true, decide_eq_true_eq] at hf
  obtain ⟨⟨⟨⟨⟨hordinary, hunlocked⟩, hdepends⟩, huntested⟩, hinternal⟩, hnothing⟩ := hf
  refine ⟨h, c, reached, hordinary, fun row hrow ph => hunlocked row hrow ph (Phase.mem_names ph), huntested, ?_,
    ⟨0, .single ⟨⟨1, 0, "lib"⟩, by simp [hdepends], rfl, rfl, by decide⟩, .inr (.inr hinternal)⟩, hnothing⟩
  intro path hchain
  match path with
  | [] | [_] => simp
  | a :: b :: _ =>
    simp only [List.isChain_cons_cons] at hchain
    have ha := (chain_needs hdepends hchain.1).2
    have hb := (chain_needs hdepends hchain.2.1).1
    exact absurd (ha.symm.trans hb) (by decide)

theorem test_listed : Comes testChainDb fun db => ¬ Blocked db 1 ∧ lists db { portId := some 1 } = some true := by
  obtain ⟨h, c, reached, hf⟩ := reached_of_history Cluster.next (s := Cluster.start testChainDb)
    (w := failedBuild) (f := fun x => decide (∀ y ∈ x.1, Ordinary 1 y.1 y.2) &&
      decide (∀ row ∈ x.2.db.tree.ports, ∀ ph ∈ Phase.names, x.2.db.lock row.id ph = none) &&
      decide (x.2.db.tree.depends = [⟨1, 0, "test"⟩]) && decide (x.2.db.status 1 = .untested) &&
      decide (lists x.2.db { portId := some 1 } = some true)) (by decide +kernel)
  simp only [Bool.and_eq_true, decide_eq_true_eq] at hf
  obtain ⟨⟨⟨⟨hordinary, hunlocked⟩, hdepends⟩, huntested⟩, hlisted⟩ := hf
  refine ⟨h, c, reached, hordinary, fun row hrow ph => hunlocked row hrow ph (Phase.mem_names ph), huntested, ?_, ?_, hlisted⟩
  · intro path hchain
    match path with
    | [] => simp
    | a :: _ => exact absurd (List.isChain_cons_cons.1 hchain).1 (test_needs hdepends)
  · rintro ⟨q, hq, -⟩
    obtain ⟨b, -, hb⟩ := Relation.TransGen.tail'_iff.1 hq
    exact test_needs hdepends hb

theorem blockers_disagree : (Comes chainDb fun db => Blocked db 1 ∧ lists db { portId := some 1 } = some false) ∧
    Comes testChainDb fun db => ¬ Blocked db 1 ∧ lists db { portId := some 1 } = some true :=
  ⟨internal_unlisted, test_listed⟩

theorem failed_explained : ∃ r,
    toolGetDependencyBlockers { chainDb with status := fun p => if p = 0 then .fail else .untested }
      { portId := some 1 } = .ok (some r) ∧
      Explained { chainDb with status := fun p => if p = 0 then .fail else .untested } 1 r :=
  @blockers_explained _ _ sampleDependent (by decide +kernel) (by decide)

end Samples
end Mports.McpBlockers
