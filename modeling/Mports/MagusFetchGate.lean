import Mports.MagusPackages

set_option autoImplicit false

namespace Mports.MagusFetchGate
open MagusTables MagusDepends MagusReady MagusCluster
open MagusUploads MagusPackages LabelledRuns

/-- Where the walk follows a test dependency of a port it has met, or any dependency of
the fetched port itself, it comes to that port or to one that has a package. -/
def Screened (db : Db) (p : PortRow) : Prop :=
  ∀ x, FetchReaches db.tree p x → ∀ d ∈ db.tree.depends, d.port = x.id →
    d.type = "test" ∨ x = p → d.dependency = p.id ∨ (db.status d.dependency).Good

section Gate
variable {db : Db} {c : Cluster} {p : PortRow}

theorem edge_iff {T : Tree} {x y : PortRow} : y ∈ relations T (fun _ => true) x ↔
    ∃ d ∈ T.depends, d.port = x.id ∧ T.retrieve d.dependency = some y := by
  simp [mem_relations]

/-- Everything the walk meets is the port itself or has a package: the gate vouches for
the first step, the layers for the steps that are no test dependencies. -/
theorem reached_good (h : Grounded db c) (ready : ReadyFetch c.db p) (hp : p ∈ c.db.tree.ports)
    (screened : Screened c.db p) {x : PortRow} (hx : FetchReaches c.db.tree p x) :
    x = p ∨ (c.db.status x.id).Good := by
  have same : ∀ {y : PortRow}, y ∈ c.db.tree.ports → y.id = p.id → y = p := fun hy hid =>
    List.inj_on_of_nodup_map c.db.tree.ports_key hy hp hid
  obtain ⟨d, hd, hdx⟩ := hx
  induction hdx with
  | refl =>
    obtain ⟨dep, hdep, hport, htype, hret⟩ := mem_relations.1 hd
    have hgood := (ready.2.2 dep hdep hport htype).1
    rw [(Tree.retrieve_mem hret).2.symm] at hgood
    exact .inr hgood
  | @tail y z hdy hyz ih =>
    have hyreach : FetchReaches c.db.tree p y := ⟨d, hd, hdy⟩
    obtain ⟨dep, hdep, hport, hret⟩ := edge_iff.1 hyz
    obtain ⟨hz, hzid⟩ := Tree.retrieve_mem hret
    by_cases hstray : dep.type = "test" ∨ y = p
    · rcases screened y hyreach dep hdep hport hstray with hself | hgood
      · exact .inl (same hz (hzid.trans hself))
      · exact .inr (hzid ▸ hgood)
    · obtain ⟨htest, hne⟩ := not_or.1 hstray
      have hsettled := h.layered.builds y hyreach.mem_ports (.inl (ih.resolve_left hne)) dep hdep hport
        (by simpa [nonTest] using htest)
      exact .inr (hzid ▸ hsettled.1)

theorem screened_of_closure (names : (c.db.tree.ports.map (·.pkgname)).Nodup)
    (hp : p ∈ c.db.tree.ports)
    (all : ∀ d ∈ fetchDependsClosure c.db.tree p, (c.db.status d.id).Good) : Screened c.db p := by
  intro x hx d hd hport _
  obtain ⟨_, _, y, hy, _, hyid, _⟩ := c.db.tree.depends_run d hd
  have hret : c.db.tree.retrieve d.dependency = some y := hyid ▸ Tree.retrieve_of_mem hy
  by_cases hname : y.pkgname = p.pkgname
  · have hyp : y = p := List.inj_on_of_nodup_map names hy hp hname
    exact .inl (hyid.symm.trans (congrArg PortRow.id hyp))
  · have hreach : FetchReaches c.db.tree p y := hx.tail (edge_iff.2 ⟨d, hd, hport, hret⟩)
    exact .inr (hyid ▸ all y (fetchDependsClosure_complete names hreach hname))

end Gate

/-- From freshly indexed ports on, `inject_fetch_depends` finds a package for everything
in the closure of a port that `ready_fetch_ports` offers if the strays of its walk have
one, and only if, where names are distinct. -/
theorem fetch_injectable_iff {db : Db} (free : ∀ p ph, db.lock p ph = none)
    (fresh : ∀ row ∈ db.tree.ports, db.status row.id = .untested ∨ db.status row.id = .skip ∨
      db.status row.id = .fail) {h : List (Cluster × Event)} {c : Cluster}
    (run : Run Cluster.Step (Cluster.start db) h c)
    (all : AllSteps (fun c e => Undisturbed c e ∧ Atomic c e) h) {p : PortRow}
    (offered : p ∈ readyPorts c.db p.run .fetch) :
    (Screened c.db p → ∀ d ∈ fetchDependsClosure c.db.tree p, (c.db.status d.id).Good) ∧
    ((c.db.tree.ports.map (·.pkgname)).Nodup →
      (∀ d ∈ fetchDependsClosure c.db.tree p, (c.db.status d.id).Good) → Screened c.db p) := by
  obtain ⟨hp, hready⟩ := List.mem_filter.1 offered
  have ready : ReadyFetch c.db p := by simpa [Ready] using hready
  refine ⟨fun screened d hd => ?_, fun names hall => screened_of_closure names hp hall⟩
  obtain ⟨hreach, hname⟩ := mem_fetchDependsClosure hd
  have hground := Grounded.of_run free fresh run all
  refine (reached_good hground ready hp screened hreach).resolve_left ?_
  rintro rfl
  exact hname rfl

section Samples

def fetchedRow : PortRow := { id := 0, run := 1, name := "devel/p", version := "1", pkgname := "p" }
def masterRow : PortRow := { id := 1, run := 1, name := "misc/a", version := "1", pkgname := "a" }
def testerRow : PortRow := { id := 2, run := 1, name := "misc/b", version := "1", pkgname := "b" }

/-- The first port needs the second to be fetched, and some port the third to be tested. -/
def gateTree (tested : PortRow) : Tree where
  ports := [fetchedRow, masterRow, testerRow]
  depends := if tested.id = 1 then [⟨0, 1, "fetch"⟩, ⟨1, 2, "test"⟩] else
    [⟨0, 1, "fetch"⟩, ⟨0, 2, "test"⟩]
  ports_key := by decide
  depends_key := by split <;> decide
  depends_run := by split <;> decide

def gateDb (tested : PortRow) : Db :=
  { Db.empty with
    tree := gateTree tested
    phaseRow := fun _ _ => some (.fresh 0) }

def masterBuilt : List Event :=
  taken 1 masterRow .fetch 20 ++ calls 20 3 ++ taken 1 masterRow .build 30 ++ calls 30 7 ++
    passed 30 40 ++ uploaded 30 40 ++ released 30

theorem master_injectable : ∃ h c, Run Cluster.Step (Cluster.start (gateDb fetchedRow)) h c ∧
    fetchDependsClosure c.db.tree fetchedRow = [masterRow] ∧ (c.db.status 1).Good := by
  obtain ⟨h, c, run, hf⟩ := reached_of_history Cluster.next (s := Cluster.start (gateDb fetchedRow))
    (w := masterBuilt) (f := fun x => (x.1.all fun y => Composed y.1 y.2) &&
      decide (x.2.db.tree.depends = [⟨0, 1, "fetch"⟩, ⟨0, 2, "test"⟩]) &&
      decide (x.2.db.tree.ports = [fetchedRow, masterRow, testerRow]) &&
      decide (fetchDependsClosure x.2.db.tree fetchedRow = [masterRow]) &&
      decide (fetchedRow ∈ readyPorts x.2.db 1 .fetch)) (by decide +kernel)
  simp only [Bool.and_eq_true, List.all_eq_true, decide_eq_true_eq] at hf
  obtain ⟨⟨⟨⟨hall, hdepends⟩, hports⟩, hclosure⟩, hoffered⟩ := hf
  refine ⟨h, c, run, hclosure, ?_⟩
  refine (fetch_injectable_iff (fun _ _ => rfl) (fun _ _ => .inl rfl) run
    (fun x hx => Composed.undisturbed (hall x hx)) hoffered).1 ?_ masterRow (by simp [hclosure])
  -- the walk ends at the second port, which needs nothing
  have honly : ∀ x, FetchReaches c.db.tree fetchedRow x → x = masterRow := by
    rintro x ⟨d, hd, hdx⟩
    have hone : ∀ y, y ∈ fetchDepends c.db.tree fetchedRow → y = masterRow := by
      simp only [fetchDepends, relations, Tree.retrieve, hdepends, hports]
      decide
    induction hdx with
    | refl => exact hone d hd
    | @tail y z _ hyz ih =>
      subst ih
      obtain ⟨dep, hdep, hport, _⟩ := edge_iff.1 hyz
      rw [hdepends] at hdep
      simp only [List.mem_cons, List.not_mem_nil, or_false] at hdep
      rcases hdep with rfl | rfl <;> cases hport
  intro x hx d hd hport _
  obtain rfl := honly x hx
  rw [hdepends] at hd
  simp only [List.mem_cons, List.not_mem_nil, or_false] at hd
  rcases hd with rfl | rfl <;> cases hport

/-- A fetch dependency has passed, and the port it needs for its tests is untested. The
port is offered for its fetch, whose worker dies and leaves it `internal`. -/
theorem tester_stops_fetch : ∃ h c h' c', Run Cluster.Step (Cluster.start (gateDb masterRow)) h c ∧
    (∀ x ∈ h, Undisturbed x.1 x.2 ∧ Atomic x.1 x.2) ∧
      GetReadyPort c.db 1 .fetch fetchedRow ∧ testerRow ∈ fetchDependsClosure c.db.tree fetchedRow ∧
      c.db.status 2 = .untested ∧ Run Cluster.Step c h' c' ∧
      c'.db.phaseStatus 0 .fetch = some .internal := by
  obtain ⟨h, c, run, hf⟩ := reached_of_history Cluster.next (s := Cluster.start (gateDb masterRow))
    (w := masterBuilt) (f := fun x => (x.1.all fun y => Composed y.1 y.2) &&
      decide (GetReadyPort x.2.db 1 .fetch fetchedRow) &&
      decide (testerRow ∈ fetchDependsClosure x.2.db.tree fetchedRow) &&
      decide (x.2.db.status 2 = .untested) &&
      (history Cluster.next x.2 (taken 2 fetchedRow .fetch 50 ++ calls 50 7 ++
        [Event.call 50 (.command (.exited 0) "")] ++ calls 50 3) []).any
        fun y : List (Cluster × Event) × Cluster => decide (y.2.db.phaseStatus 0 .fetch = some .internal))
    (by decide +kernel)
  simp only [Bool.and_eq_true, List.all_eq_true, decide_eq_true_eq] at hf
  obtain ⟨⟨⟨⟨hall, hready⟩, hmem⟩, huntested⟩, hrest⟩ := hf
  obtain ⟨h', c', rest, hinternal⟩ := reached_of_history Cluster.next hrest
  exact ⟨h, c, h', c', run, fun x hx => Composed.undisturbed (hall x hx), hready, hmem, huntested,
    rest, of_decide_eq_true hinternal⟩

end Samples
end Mports.MagusFetchGate
