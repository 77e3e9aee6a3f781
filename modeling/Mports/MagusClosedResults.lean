import Mports.DependsClosures
import Mports.MagusEffects

set_option autoImplicit false

namespace Mports.MagusClosedResults
open MagusTables MagusDepends MagusStatements MagusPort MagusReady MagusWorker MagusFootprint
open MagusEffects StatementPrograms

def Closed (db : Db) : Prop :=
  ∀ d ∈ db.tree.depends, nonTest d.type → (db.status d.port).Good → (db.status d.dependency).Good

instance (db : Db) : Decidable (Closed db) := inferInstanceAs (Decidable (∀ d ∈ _, _))

/-- What `ready_ports` asks of the statuses of a port and its dependencies. -/
def Buildable (db : Db) (p : PortId) : Prop :=
  db.status p = .untested ∧
    ∀ d ∈ db.tree.depends, d.port = p → nonTest d.type → (db.status d.dependency).Good

theorem ReadyBuild.buildable {db : Db} {row : PortRow} (h : ReadyBuild db row) :
    Buildable db row.id :=
  ⟨h.2.2.1, fun d hd hp ht => (h.2.2.2.2 d hd hp ht).1⟩

/-- The operations that rewrite `ports.status`. -/
inductive Rewrite where
  | insertResults (l : Lock) (results : Results)
  | setResult (machine : MachineId) (p : PortId) (st : Status) (msg type : String)
  | processDeadChild (l : Lock) (exitcode : ℕ)
  | reset (p : PortId)
  | killChildren (machine : MachineId)

namespace Rewrite

def prog (db : Db) : Rewrite → Magus Unit
  | insertResults l results => MagusWorker.insertResults l results
  | setResult machine p st msg type => MagusPort.setResult machine p st msg type
  | processDeadChild l exitcode => MagusWorker.processDeadChild l exitcode
  | reset p => MagusPort.reset p
  | killChildren machine => Prog.forEach (machineLocks db machine) killLock

/-- Results are inserted and set for a port that `ready_ports` returned. -/
def Proper (db : Db) : Rewrite → Prop
  | insertResults l _ => Buildable db l.port.id
  | setResult _ p _ _ _ => Buildable db p
  | _ => True

def settles : Rewrite → Option PortId
  | insertResults l _ => some l.port.id
  | setResult _ p _ _ _ => some p
  | _ => none

def resets (db : Db) : Rewrite → List PortId
  | processDeadChild l exitcode => if exitcode = 6 ∧ l.phase = .build then [l.port.id] else []
  | reset p => [p]
  | killChildren machine => (machineLocks db machine).map (·.port.id)
  | _ => []

/-- No port that keeps its package has a non-test dependency among the reset ports. -/
def Spares (db : Db) (op : Rewrite) : Prop :=
  ∀ d ∈ db.tree.depends, nonTest d.type → (db.status d.port).Good →
    d.port ∉ op.resets db → d.dependency ∉ op.resets db

end Rewrite

/-- What the operation has done to the statuses once it has returned. -/
structure Rewritten (db db' : Db) (resets : List PortId) (settles : Option PortId) : Prop where
  tree : db'.tree = db.tree
  reset : ∀ q ∈ resets, db'.status q = .untested
  kept : ∀ q, q ∉ resets → some q ≠ settles → db'.status q = db.status q

section Drive
variable {choose : Op → Choice} {db db' : Db}

/-- Statements that touch the status of no port but `p`. -/
def Sparing (p : PortId) : Op → Prop
  | .sql s => (∀ q, q ≠ p → ¬ WritesStatus q s) ∧ ¬ Indexes s
  | _ => True

theorem sparing_of_reset {p : PortId} {s : Stmt} (h : ResetStmt p s) : Sparing p (.sql s) := by
  cases s <;> simp_all [ResetStmt, Sparing, WritesStatus, Indexes]
  exact fun q hq he => hq he.symm

theorem sparing_of_own {l : Lock} {ok : Status → Prop} {s : Stmt} (h : OwnStmt l ok s) :
    Sparing l.port.id (.sql s) := by
  cases s <;> simp_all [OwnStmt, Sparing, WritesStatus, Indexes]
  exact fun q hq he => hq he.symm

theorem drive_sparing {p : PortId} {prog : Magus Unit} {x : Exit magus Unit}
    (hp : Uses (Sparing p) (fun _ _ => True) prog) (h : drive choose prog db = some (x, db')) :
    db'.tree = db.tree ∧ ∀ q, q ≠ p → db'.status q = db.status q := by
  refine drive_uses choose (I := fun u => u.tree = db.tree ∧ ∀ q, q ≠ p → u.status q = db.status q)
    hp (fun o u ch r u' ho ha hI => ?_) h ⟨rfl, fun _ _ => rfl⟩
  constructor
  · rw [answer_tree ha fun s hs => (by subst hs; exact ho.2), hI.1]
  · intro q hq
    rw [answer_status ha fun s hs => (by subst hs; exact ho.1 q hq), hI.2 q hq]

theorem drive_reset {p : PortId} (h : drive choose (reset p) db = some (.ret (), db')) :
    db'.tree = db.tree ∧ db'.status p = .untested ∧ ∀ q, q ≠ p → db'.status q = db.status q := by
  have hsparing := drive_sparing (reset_uses p fun _ => sparing_of_reset) h
  refine ⟨hsparing.1, ?_, hsparing.2⟩
  obtain ⟨_, db₁, _, h₁⟩ := drive_bind_inv choose h
  obtain ⟨_, db₂, _, h₂⟩ := drive_bind_inv choose h₁
  obtain ⟨⟨r, u⟩, ha, hret⟩ := Option.bind_eq_some_iff.1 h₂
  rcases answer_sql ha with ⟨x, rfl, hx⟩ | ⟨e, _, rfl, _, _⟩
  · cases hx
    cases hret
    exact Function.update_self _ _ _
  · cases hret

def Quiet : Op → Prop
  | .sql s => (∀ q, ¬ WritesStatus q s) ∧ ¬ Indexes s
  | _ => True

theorem drive_quiet {α : Type} {prog : Magus α} {x : Exit magus α}
    (hp : Uses Quiet (fun _ _ => True) prog) (h : drive choose prog db = some (x, db')) :
    db'.tree = db.tree ∧ db'.status = db.status := by
  refine drive_uses choose (I := fun u => u.tree = db.tree ∧ u.status = db.status) hp
    (fun o u ch r u' ho ha hI => ⟨?_, ?_⟩) h ⟨rfl, rfl⟩
  · rw [answer_tree ha fun s hs => (by subst hs; exact ho.2), hI.1]
  · funext q
    rw [answer_status ha fun s hs => (by subst hs; exact ho.1 q), hI.2]

theorem quiet_setPhaseStatus {machine : MachineId} {p : PortId} {ph : Phase} {st : Status} :
    Uses Quiet (fun _ _ => True) (setPhaseStatus machine p ph st) :=
  setPhaseStatus_uses ⟨fun _ => id, id⟩ ⟨fun _ => id, id⟩ ⟨fun _ => id, id⟩

theorem quiet_deleteLock {l : Lock} : Uses Quiet (fun _ _ => True) (sql (.deleteLock l)) :=
  Uses.issue ⟨fun _ => id, id⟩

theorem drive_killLock {l : Lock} (h : drive choose (killLock l) db = some (.ret (), db')) :
    Rewritten db db' [l.port.id] none := by
  obtain ⟨_, db₁, hreset, h₁⟩ := drive_bind_inv choose h
  obtain ⟨htree, hself, hother⟩ := drive_reset hreset
  obtain ⟨htree', hstatus⟩ := drive_quiet quiet_deleteLock h₁
  refine ⟨htree'.trans htree, ?_, fun q hq _ => ?_⟩
  · rintro q hq
    rw [List.mem_singleton.1 hq, hstatus, hself]
  · rw [hstatus, hother q (by simpa using hq)]

theorem drive_killLocks {locks : List Lock}
    (h : drive choose (Prog.forEach locks killLock) db = some (.ret (), db')) :
    Rewritten db db' (locks.map (·.port.id)) none := by
  induction locks generalizing db with
  | nil =>
    cases h
    exact ⟨rfl, by simp, fun _ _ _ => rfl⟩
  | cons l locks ih =>
    obtain ⟨_, db₁, hl, hrest⟩ := drive_bind_inv choose h
    have first := drive_killLock hl
    have rest := ih hrest
    refine ⟨rest.tree.trans first.tree, fun q hq => ?_, fun q hq hs => ?_⟩
    · by_cases hin : q ∈ locks.map (·.port.id)
      · exact rest.reset q hin
      · rcases List.mem_cons.1 hq with rfl | hq
        · rw [rest.kept _ hin (by simp), first.reset _ (by simp)]
        · exact absurd hq hin
    · rw [List.map_cons, List.mem_cons, not_or] at hq
      rw [rest.kept q hq.2 hs, first.kept q (by simpa using hq.1) hs]

theorem drive_processDeadChild {l : Lock} {code : ℕ}
    (h : drive choose (processDeadChild l code) db = some (.ret (), db')) :
    Rewritten db db' (if code = 6 ∧ l.phase = .build then [l.port.id] else []) none := by
  obtain ⟨_, db₁, hfirst, h₁⟩ := drive_bind_inv choose h
  obtain ⟨htree', hstatus⟩ := drive_quiet quiet_deleteLock h₁
  by_cases hcode : code = 6
  · by_cases hb : l.phase = .build
    · simp only [Prog.when, hcode, hb, if_true] at hfirst
      obtain ⟨htree, hself, hother⟩ := drive_reset hfirst
      simp only [hcode, hb, and_self, if_true]
      refine ⟨htree'.trans htree, fun q hq => ?_, fun q hq _ => ?_⟩
      · rw [List.mem_singleton.1 hq, hstatus, hself]
      · rw [hstatus, hother q (by simpa using hq)]
    · simp only [Prog.when, hcode, hb, if_true, if_false] at hfirst
      obtain ⟨htree, hsame⟩ := drive_quiet quiet_setPhaseStatus hfirst
      simp only [hb, and_false, if_false]
      exact ⟨htree'.trans htree, by simp, fun q _ _ => by rw [hstatus, hsame]⟩
  · simp only [Prog.when, hcode, if_false] at hfirst
    cases hfirst
    simp only [hcode, false_and, if_false]
    exact ⟨htree', by simp, fun q _ _ => by rw [hstatus]⟩

theorem drive_rewrite (op : Rewrite)
    (h : drive choose (op.prog db) db = some (.ret (), db')) :
    Rewritten db db' (op.resets db) op.settles := by
  cases op with
  | insertResults l results =>
    have hs := drive_sparing (insertResults_uses l results (K := fun _ => True) trivial
      fun _ => sparing_of_own) h
    exact ⟨hs.1, by simp [Rewrite.resets], fun q _ hq => hs.2 q fun he => hq (he ▸ rfl)⟩
  | setResult machine p st msg type =>
    have hs := drive_sparing (p := p) (setResult_uses (P := Sparing p)
      ⟨fun q hq he => hq he.symm, id⟩ ⟨fun _ _ => id, id⟩ ⟨fun _ _ => id, id⟩
      ⟨fun _ _ => id, id⟩ fun _ _ _ => ⟨fun _ _ => id, id⟩) h
    exact ⟨hs.1, by simp [Rewrite.resets], fun q _ hq => hs.2 q fun he => hq (he ▸ rfl)⟩
  | processDeadChild l code => exact drive_processDeadChild h
  | reset p =>
    obtain ⟨htree, hself, hother⟩ := drive_reset h
    refine ⟨htree, fun q hq => ?_, fun q hq _ => hother q fun he => hq (he ▸ List.mem_singleton_self _)⟩
    rw [List.mem_singleton.1 hq, hself]
  | killChildren machine => exact drive_killLocks h

end Drive

section Closure
variable {db db' : Db}

theorem Rewritten.good_before {op : Rewrite} (h : Rewritten db db' (op.resets db) op.settles)
    {q : PortId} (hg : (db'.status q).Good) :
    q ∉ op.resets db ∧ ((db.status q).Good ∨ some q = op.settles) := by
  have hq : q ∉ op.resets db := fun hr => by rw [h.reset q hr] at hg; exact Status.not_good_untested hg
  refine ⟨hq, ?_⟩
  by_cases hs : some q = op.settles
  · exact .inr hs
  · exact .inl (h.kept q hq hs ▸ hg)

theorem settles_buildable {op : Rewrite} (hop : op.Proper db) {q : PortId}
    (hq : some q = op.settles) : Buildable db q ∧ op.resets db = [] := by
  cases op with
  | insertResults | setResult =>
    cases hq
    exact ⟨hop, rfl⟩
  | _ => cases hq

theorem Rewritten.good_after {op : Rewrite} (hop : op.Proper db)
    (h : Rewritten db db' (op.resets db) op.settles) {q : PortId} (hg : (db.status q).Good)
    (hq : q ∉ op.resets db) : (db'.status q).Good := by
  rw [h.kept q hq fun hs => ?_]
  · exact hg
  · rw [(settles_buildable hop hs).1.1] at hg
    exact Status.not_good_untested hg

theorem rewritten_closed_iff {op : Rewrite} (hclosed : Closed db) (hop : op.Proper db)
    (h : Rewritten db db' (op.resets db) op.settles) : Closed db' ↔ op.Spares db := by
  constructor
  · intro hc d hd ht hg hp
    exact (h.good_before (hc d (h.tree ▸ hd) ht (h.good_after hop hg hp))).1
  · intro hs d hd ht hg
    rw [h.tree] at hd
    obtain ⟨hp, hg | hsettled⟩ := h.good_before hg
    · exact h.good_after hop (hclosed d hd ht hg) (hs d hd ht hg hp)
    · obtain ⟨hbuild, hnil⟩ := settles_buildable hop hsettled
      exact h.good_after hop (hbuild.2 d hd rfl ht) (by simp [hnil])

/-- In a closed state `inject_depends` finds packages of everything it injects for a
port that `ready_ports` offers. -/
theorem closure_good (hclosed : Closed db) {row q : PortRow} (hready : ReadyBuild db row)
    (hq : q ∈ buildDependsClosure db.tree row) : (db.status q.id).Good := by
  refine (DependsClosures.mem_phaseDependsClosure hq).1.closed (S := fun x => (db.status x.id).Good) ?_ ?_
  · intro x hx
    obtain ⟨d, hd, hp, ht, hr⟩ := mem_relations.1 hx
    rw [(Tree.retrieve_mem hr).2]
    exact (ReadyBuild.buildable hready).2 d hd hp (by simpa using ht)
  · intro x hg y hy
    obtain ⟨d, hd, hp, ht, hr⟩ := mem_relations.1 hy
    rw [(Tree.retrieve_mem hr).2]
    exact hclosed d hd ht (hp ▸ hg)

/-- An operation that rewrites build statuses leads from a closed state to a closed
state exactly when it spares the dependencies of the packages it leaves, and then every
port offered afterwards has packages of all its dependencies. -/
theorem rewrite_closed_iff {choose : Op → Choice} {op : Rewrite} (hclosed : Closed db)
    (hop : op.Proper db) (h : drive choose (op.prog db) db = some (.ret (), db')) :
    (Closed db' ↔ op.Spares db) ∧ (op.Spares db → ∀ row, ReadyBuild db' row →
      ∀ q ∈ buildDependsClosure db'.tree row, (db'.status q.id).Good) := by
  have hiff := rewritten_closed_iff hclosed hop (drive_rewrite op h)
  exact ⟨hiff, fun hs row hready q hq => closure_good (hiff.2 hs) hready hq⟩

end Closure

section Stack

def libRow : PortRow := { id := 1, run := 1, name := "devel/lib", version := "1", pkgname := "lib" }
def midRow : PortRow := { id := 2, run := 1, name := "devel/mid", version := "1", pkgname := "mid" }
def topRow : PortRow := { id := 3, run := 1, name := "misc/top", version := "1", pkgname := "top" }

/-- `top` needs `mid` and `mid` needs `lib`. -/
def stackTree : Tree where
  ports := [libRow, midRow, topRow]
  depends := [⟨2, 1, "lib"⟩, ⟨3, 2, "lib"⟩]
  ports_key := by decide
  depends_key := by decide
  depends_run := by decide

/-- Only `top` is still to be built. -/
def stackDb : Db where
  __ := Db.empty
  tree := stackTree
  status := fun p => if p = 3 then .untested else .pass
  phaseRow := fun p ph =>
    some { PhaseRow.fresh 0 with status := if p = 3 ∧ ph ≠ .fetch then .untested else .pass }

/-- Resetting `lib` leaves `mid` without its dependency, and `top` is offered although
`inject_depends` is going to die on `lib`. -/
theorem reset_breaks_closed : Closed stackDb ∧ ∃ db',
    drive (fun _ => .done) (Rewrite.prog stackDb (.reset 1)) stackDb = some (.ret (), db') ∧
      ¬ Closed db' ∧ ReadyBuild db' topRow ∧ libRow ∈ buildDependsClosure db'.tree topRow ∧
        ¬ (db'.status libRow.id).Good :=
  ⟨by decide, drive_returns _ (by decide)⟩

/-- Resetting `mid` is no harm: only `top` is above it, which has no package yet. -/
theorem reset_mid_closed : ∃ db',
    drive (fun _ => .done) (Rewrite.prog stackDb (.reset 2)) stackDb = some (.ret (), db') ∧
      Closed db' := by
  have hproper : Rewrite.Proper stackDb (.reset 2) := trivial
  obtain ⟨db', h, _⟩ := drive_returns (fun _ => .done) (p := Rewrite.prog stackDb (.reset 2))
    (s := stackDb) (Q := fun _ => True) (by decide)
  refine ⟨db', h, (rewrite_closed_iff (by decide) hproper h).1.2 ?_⟩
  unfold Rewrite.Spares
  decide

end Stack
end Mports.MagusClosedResults
