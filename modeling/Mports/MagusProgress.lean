import Mathlib.Data.Fintype.Order
import Mports.MagusPackages

set_option autoImplicit false

namespace Mports.MagusProgress
open MagusTables MagusDepends MagusStatements MagusReady MagusFootprint MagusEffects
open MagusCluster MagusTasks MagusConduct MagusPackages LabelledRuns
open KeyedWalk (acyclic_induction)
open Relation (TransGen)

section Statuses
variable {c c' : Cluster} {e : Event}

theorem status_written {handled : Lock → Prop} {pid : Pid} {k : Kind} {s : Stmt}
    {κ : Except Exn s.Res → Magus Unit} {ch : Choice} {r : Except Exn s.Res} {db : Db} {p : PortId}
    (conduct : Conduct handled c) (ht : task c (.inl pid) = some (k, .call (.sql s) κ))
    (ha : answer c.db (.sql s) ch = some (r, db)) (hold : c.db.status p ≠ .running) :
    db.status p ≠ .running := by
  have own : ∀ {l : Lock} {K : Status → Prop} {st : Status}, OwnStmt l K (.updateStatus p st) →
      st ≠ .running := fun h => h.2.2.2.2
  have reset : ∀ {q : PortId} {st : Status}, ResetStmt q (.updateStatus p st) → st ≠ .running := by
    rintro q st ⟨_, rfl⟩
    decide
  rcases answer_sql ha with ⟨x, _, hx⟩ | ⟨_, _, _, _, rfl⟩
  swap
  · exact hold
  by_cases hw : WritesStatus p s
  swap
  · rwa [exec_status hx hw]
  have hop := conduct.op ht
  cases s with
  | updateStatus q st =>
    cases hw
    cases hx
    change Function.update c.db.status p st p ≠ .running
    rw [Function.update_self]
    cases k with
    | worker l =>
      rcases hop with hop | ⟨_, hop⟩
      · exact own hop
      · exact reset hop
    | makeChild l => exact own hop
    | burial l code =>
      rcases hop with hop | ⟨_, hop⟩
      · cases hop
      · split at hop
        · exact reset hop
        · exact own hop
    | killer l =>
      rcases hop with hop | hop
      · cases hop
      · exact reset hop
    | resetPort q => exact reset hop
    | index q => rcases hop.2 with rfl | rfl <;> decide
    | _ => cases hop
  | insertPort row =>
    obtain ⟨T, _, hT⟩ := Option.map_eq_some_iff.1 hx
    cases hT
    cases hw
    change Function.update c.db.status row.id .untested row.id ≠ .running
    rw [Function.update_self]
    decide
  | _ => cases hw

/-- The status of a port is that of a build that is over or still to come. -/
def Plain (c : Cluster) : Prop := ∀ p, c.db.status p ≠ .running

theorem Plain.step (h : Plain c) (hr : Regular (fun _ => True) c) (hm : Move c e c') : Plain c' := by
  intro p
  obtain ⟨y, hmoved⟩ := moved hm
  generalize c'.db = db at hmoved
  cases hmoved with
  | @call pid k o κ ch r db ht ha =>
    cases o with
    | sql s => exact status_written hr.conduct ht ha (h p)
    | _ =>
      rw [answer_status ha fun s hs => by cases hs]
      exact h p
  | _ => exact h p

end Statuses

/-- `p` has a `depends` row on `q` that a build waits for. -/
def Needs (T : Tree) (p q : PortId) : Prop :=
  ∃ d ∈ T.depends, d.port = p ∧ d.dependency = q ∧ nonTest d.type

section Blocked
variable {db : Db} {run : RunId}

theorem blocked (unlocked : ∀ row ∈ db.tree.ports, row.run = run → ∀ ph, db.lock row.id ph = none)
    (noBuild : readyPorts db run .build = []) (noFetch : readyPorts db run .fetch = [])
    {row : PortRow} (hrow : row ∈ db.tree.ports) (hrun : row.run = run)
    (hfetch : (db.phaseRow row.id .fetch).isSome) (huntested : db.status row.id = .untested) :
    ∃ q ∈ db.tree.ports, q.run = run ∧ Needs db.tree row.id q.id ∧ ¬ (db.status q.id).Good := by
  have unoffered : ∀ ph, readyPorts db run ph = [] → ¬ Ready db ph row := fun ph hnone hready =>
    List.filter_eq_nil_iff.1 hnone row hrow (by simp [hrun, hready])
  -- a gate that is shut has a dependency of its type that is not built, as none is locked
  have shut : ∀ accept : String → Bool, (∀ type, accept type → nonTest type) →
      ¬ DependsReady db accept row.id → ∃ q ∈ db.tree.ports, q.run = run ∧
        Needs db.tree row.id q.id ∧ ¬ (db.status q.id).Good := by
    intro accept hacc hnot
    unfold DependsReady at hnot
    push Not at hnot
    obtain ⟨d, hd, hport, htype, hstate⟩ := hnot
    obtain ⟨p, hp, q, hq, hpid, hqid, hsame⟩ := db.tree.depends_run d hd
    have hprow : p = row := List.inj_on_of_nodup_map db.tree.ports_key hp hrow (hpid.trans hport)
    have hqrun : q.run = run := by rw [← hsame, hprow, hrun]
    refine ⟨q, hq, hqrun, ⟨d, hd, hport, hqid.symm, hacc _ htype⟩, fun hgood => ?_⟩
    exact hstate (hqid ▸ hgood) (hqid ▸ unlocked q hq hqrun .build)
  by_cases hstatus : db.phaseStatus row.id .fetch = some .untested
  · refine shut _ (fun type htype => ?_) fun hready =>
      unoffered .fetch noFetch ⟨hstatus, unlocked row hrow hrun .fetch, hready⟩
    simp only [decide_eq_true_eq] at htype
    subst htype
    decide
  · exact shut _ (fun _ h => h) fun hready => unoffered .build noBuild
      ⟨hfetch, hstatus, huntested, unlocked row hrow hrun .build, hready⟩

end Blocked

/-- In every state that any run reaches: where no lock exists for a run without cyclic
builds, and neither a build nor a fetch is ready, every untested port of it needs, in
one or more steps, a port that failed, was skipped or broke down. -/
theorem never_wedged {db : Db} (free : ∀ p ph, db.lock p ph = none) (plain : ∀ p, db.status p ≠ .running)
    {h : List (Cluster × Event)} {c : Cluster} (reached : Run Cluster.Step (Cluster.start db) h c)
    {run : RunId}
    (acyclic : ∀ row ∈ c.db.tree.ports, row.run = run → ¬ TransGen (Needs c.db.tree) row.id row.id)
    (phases : ∀ row ∈ c.db.tree.ports, row.run = run → ∀ ph, (c.db.phaseRow row.id ph).isSome)
    (unlocked : ∀ row ∈ c.db.tree.ports, row.run = run → ∀ ph, c.db.lock row.id ph = none)
    (noBuild : readyPorts c.db run .build = []) (noFetch : readyPorts c.db run .fetch = [])
    {row : PortRow} (hrow : row ∈ c.db.tree.ports) (hrun : row.run = run)
    (huntested : c.db.status row.id = .untested) :
    ∃ q ∈ c.db.tree.ports, TransGen (Needs c.db.tree) row.id q.id ∧
      (c.db.status q.id = .fail ∨ c.db.status q.id = .skip ∨ c.db.status q.id = .internal) := by
  have hplain : Plain c := (reached.invariant (fun c => Regular (fun _ => True) c ∧ Plain c)
    (K := fun _ _ => True) (fun _ _ => trivial) ⟨.start free, plain⟩ fun c e c' hI hstep _ => by
      have hm := Cluster.step_move hstep
      refine ⟨hI.1.step hm ?_, hI.2.step hI.1 hm⟩
      cases e with
      | interrupt pid sig => cases sig <;> simp [Handles]
      | _ => trivial).2
  let Ours := { row : PortRow // row ∈ c.db.tree.ports ∧ row.run = run }
  have : Finite Ours := (List.finite_toSet c.db.tree.ports).subset fun _ h => h.1
  have lift : ∀ {a b : Ours}, TransGen (fun a b : Ours => Needs c.db.tree a.1.id b.1.id) a b →
      TransGen (Needs c.db.tree) a.1.id b.1.id := fun h => h.lift _ fun _ _ h => h
  refine acyclic_induction (r := fun a b : Ours => Needs c.db.tree a.1.id b.1.id)
    (P := fun a : Ours => c.db.status a.1.id = .untested → ∃ q ∈ c.db.tree.ports,
      TransGen (Needs c.db.tree) a.1.id q.id ∧ (c.db.status q.id = .fail ∨ c.db.status q.id = .skip ∨
        c.db.status q.id = .internal))
    (fun a hcycle => acyclic a.1 a.2.1 a.2.2 (lift hcycle)) (fun a ih huntested => ?_)
    ⟨row, hrow, hrun⟩ huntested
  obtain ⟨q, hq, hqrun, hneeds, hbad⟩ :=
    blocked unlocked noBuild noFetch a.2.1 a.2.2 (phases a.1 a.2.1 a.2.2 .fetch) huntested
  cases hst : c.db.status q.id with
  | untested =>
    obtain ⟨r, hr, hpath, hend⟩ := ih ⟨q, hq, hqrun⟩ hneeds hst
    exact ⟨r, hr, .head hneeds hpath, hend⟩
  | running => exact absurd hst (hplain q.id)
  | pass | warn => simp [hst, Status.Good] at hbad
  | fail | skip | internal => exact ⟨q, hq, .single hneeds, by simp [hst]⟩

/-- The first of two ports fails to build, and the second waits for it. -/
theorem chain_blocked : ∃ h c, Run Cluster.Step (Cluster.start chainDb) h c ∧
    c.db.status 1 = .untested ∧ ∃ q ∈ c.db.tree.ports, TransGen (Needs c.db.tree) 1 q.id ∧
      (c.db.status q.id = .fail ∨ c.db.status q.id = .skip ∨ c.db.status q.id = .internal) := by
  obtain ⟨h, c, reached, hf⟩ := reached_of_history Cluster.next (s := Cluster.start chainDb)
    (w := taken 1 samplePort .build 30 ++ calls 30 7 ++ [.fork 30 40, .call 40 .done,
      .call 40 (.results { summary := .fail })] ++ calls 40 3 ++ [.exit 40, .waited 30] ++
      calls 30 4 ++ released 30)
    (f := fun x => decide (x.2.db.tree.ports = [samplePort, sampleDependent]) &&
      decide (x.2.db.tree.depends = [⟨1, 0, "lib"⟩]) &&
      decide (∀ row ∈ x.2.db.tree.ports, ∀ ph ∈ Phase.names, (x.2.db.phaseRow row.id ph).isSome = true) &&
      decide (∀ row ∈ x.2.db.tree.ports, ∀ ph ∈ Phase.names, x.2.db.lock row.id ph = none) &&
      decide (readyPorts x.2.db 1 .build = []) && decide (readyPorts x.2.db 1 .fetch = []) &&
      decide (x.2.db.status 1 = .untested)) (by decide +kernel)
  simp only [Bool.and_eq_true, decide_eq_true_eq] at hf
  obtain ⟨⟨⟨⟨⟨⟨hports, hdepends⟩, hphases⟩, hunlocked⟩, hbuild⟩, hfetch⟩, huntested⟩ := hf
  refine ⟨h, c, reached, huntested, ?_⟩
  -- a port needs only ports of smaller number
  have hdown : ∀ p q, TransGen (Needs c.db.tree) p q → q < p := by
    intro p q hpq
    have hstep : ∀ p q, Needs c.db.tree p q → q < p := by
      rintro p q ⟨d, hd, rfl, rfl, _⟩
      rw [hdepends, List.mem_singleton] at hd
      subst hd
      decide
    induction hpq with
    | single h => exact hstep _ _ h
    | tail _ h ih => exact (hstep _ _ h).trans ih
  have hrow : sampleDependent ∈ c.db.tree.ports := by simp [hports]
  exact never_wedged (fun _ _ => rfl) (fun _ => by simp [chainDb, Db.empty]) reached
    (fun row _ _ hcycle => absurd (hdown _ _ hcycle) (lt_irrefl _))
    (fun row hrow _ ph => hphases row hrow ph (Phase.mem_names ph))
    (fun row hrow _ ph => hunlocked row hrow ph (Phase.mem_names ph)) hbuild hfetch
    hrow rfl huntested

end Mports.MagusProgress
