import Mports.MagusConduct
import Mports.MakefileDiff

set_option autoImplicit false

namespace Mports.MagusTimestamps
open MagusTables MagusStatements MagusPort MagusFootprint MagusEffects MagusCluster
open MagusChildren MagusTasks MagusConduct StatementPrograms LabelledRuns
open MakefileDiff (isWord)

/-- What `mark_ignored` reads of a dump. -/
structure Ignoring where
  ignore : Option String
  isInteractive : Bool

/-- `is a meta[- ]?port; there is nothing to build`. -/
def metaports : List (List Char) :=
  ["meta-port", "meta port", "metaport"].map fun name => ("is a " ++ name ++ "; there is nothing to build").toList

/-- The pattern between two `\b`, somewhere in the text. -/
def ignoreIsMetaport (ignore : String) : Bool :=
  ignore.toList.inits.any fun before => metaports.any fun name =>
    let rest := ignore.toList.drop before.length
    name.isPrefixOf rest && !before.getLast?.any isWord && !(rest.drop name.length).head?.any isWord

def markIgnored (machine : MachineId) (dump : Ignoring) (p : PortId) : Magus Unit := do
  let ignore := dump.ignore.getD ""
  if ignoreIsMetaport ignore then
    setResultSkip machine p ignore
    markNonbuildSkip p
  else if dump.isInteractive then
    setResultSkip machine p "Port is marked as interactive."
    markNonbuildSkip p
  else if ignore ≠ "" then
    setResultSkip machine p ignore
    markNonbuildSkip p

def Ignoring.message (dump : Ignoring) : Option String :=
  let ignore := dump.ignore.getD ""
  if ignoreIsMetaport ignore then some ignore
  else if dump.isInteractive then some "Port is marked as interactive."
  else if ignore ≠ "" then some ignore else none

theorem markIgnored_eq (machine : MachineId) (dump : Ignoring) (p : PortId) :
    markIgnored machine dump p = match dump.message with
      | none => return
      | some msg => (do
        setResultSkip machine p msg
        markNonbuildSkip p) := by
  unfold markIgnored Ignoring.message
  dsimp only
  split_ifs <;> rfl

section Rows

structure Consistent (row : PhaseRow) : Prop where
  finished : row.finished = none ↔ row.status = .untested ∨ row.status = .running
  untested : row.status = .untested → row.started = none ∧ row.machine = none
  running : row.status = .running → row.started ≠ none

def Pending (row : PhaseRow) : Prop := row.status = .untested ∨ row.status = .running

instance (row : PhaseRow) : Decidable (Pending row) := inferInstanceAs (Decidable (_ ∨ _))

theorem consistent_fresh (now : ℕ) : Consistent (.fresh now) where
  finished := by simp [PhaseRow.fresh]
  untested := fun _ => ⟨rfl, rfl⟩
  running := nofun

theorem consistent_updated (now : ℕ) (st : Status) (machine : Option MachineId) (row : PhaseRow) :
    Consistent (Stmt.updatedRow now st machine row) where
  finished := by cases st <;> simp [Stmt.updatedRow]
  untested := by
    rintro (rfl : st = .untested)
    exact ⟨rfl, rfl⟩
  running := by
    rintro (rfl : st = .running)
    simp [Stmt.updatedRow]

theorem consistent_skipped {row : PhaseRow} (h : Consistent row) :
    Consistent { row with status := .skip } ↔ ¬ Pending row := by
  constructor
  · intro hskip hpending
    rcases hskip.finished.1 (h.finished.2 hpending) with hst | hst <;> cases hst
  · intro hnot
    refine ⟨⟨fun hfinished => absurd (h.finished.1 hfinished) hnot, ?_⟩, nofun, nofun⟩
    rintro (hst | hst) <;> cases hst

end Rows

def Stamped (db : Db) : Prop := ∀ p ph row, db.phaseRow p ph = some row → Consistent row

theorem stamped_empty : Stamped .empty := nofun

def Skips : Op → Prop
  | .sql (.updateResultStatus _ _ st) => st = .skip
  | _ => True

def overwritten (db : Db) : Choice → Op → Option PhaseRow
  | .done, .sql (.updateResultStatus p ph _) => db.phaseRow p ph
  | _, _ => none

def overwrittenBy (db : Db) (ch : Choice) : Option (Magus Unit) → Option PhaseRow
  | some (.call o _) => overwritten db ch o
  | _ => none

section Statements
variable {db db' : Db}

theorem spared_of_none {o : Op} {ch : Choice} (h : overwritten db ch o = none) :
    ∀ row ∈ overwritten db ch o, ¬ Pending row := by
  intro row hrow
  rw [h] at hrow
  cases hrow

theorem stamped_put {p : PortId} {ph : Phase} {v : Option PhaseRow} (h : Stamped db)
    (hrow : db'.phaseRow = put db.phaseRow p ph v) :
    Stamped db' ↔ ∀ row, v = some row → Consistent row := by
  constructor
  · intro h' row hv
    exact h' p ph row (by rw [hrow, put_same, hv])
  · intro hv q qh row hq
    rw [hrow, put_apply] at hq
    split at hq
    · exact hv row hq
    · exact h q qh row hq

theorem stamped_same (h : Stamped db) (hrow : db'.phaseRow = db.phaseRow) : Stamped db' := by
  intro p ph row hp
  exact h p ph row (by rwa [hrow] at hp)

theorem exec_stamped {s : Stmt} {x : s.Res} (h : Stamped db) (hs : Skips (.sql s))
    (hx : s.exec db = some (x, db')) :
    Stamped db' ↔ ∀ row ∈ overwritten db .done (.sql s), ¬ Pending row := by
  cases s with
  | insertPhaseResult p ph =>
    simp only [Stmt.exec, Option.ite_none_right_eq_some] at hx
    cases hx.2
    refine iff_of_true ((stamped_put h rfl).2 ?_) (spared_of_none rfl)
    rintro row ⟨rfl⟩
    exact consistent_fresh _
  | updatePhaseResult p ph st machine =>
    cases hx
    refine iff_of_true ((stamped_put h rfl).2 fun row hrow => ?_) (spared_of_none rfl)
    obtain ⟨old, _, rfl⟩ := Option.map_eq_some_iff.1 hrow
    exact consistent_updated _ _ _ _
  | updateResultStatus p ph st =>
    cases hx
    obtain rfl : st = .skip := hs
    rw [stamped_put h rfl]
    constructor
    · intro hall row hrow
      change db.phaseRow p ph = some row at hrow
      exact (consistent_skipped (h p ph row hrow)).1 (hall _ (by rw [hrow]; rfl))
    · intro hspares row hrow
      obtain ⟨old, hold, rfl⟩ := Option.map_eq_some_iff.1 hrow
      exact (consistent_skipped (h p ph old hold)).2 (hspares old hold)
  | insertPort row =>
    obtain ⟨T, _, hT⟩ := Option.map_eq_some_iff.1 hx
    cases hT
    refine iff_of_true (fun q qh r hq => ?_) (spared_of_none rfl)
    change Function.update db.phaseRow row.id (fun _ => none) q qh = some r at hq
    rw [Function.update_apply] at hq
    split at hq
    · cases hq
    · exact h q qh r hq
  | _ => exact iff_of_true (stamped_same h (funext₂ fun p ph => exec_phaseRow hx id)) (spared_of_none rfl)

theorem answer_stamped {o : Op} {ch : Choice} {r : Except Exn o.Res} (h : Stamped db) (ho : Skips o)
    (ha : answer db o ch = some (r, db')) :
    Stamped db' ↔ ∀ row ∈ overwritten db ch o, ¬ Pending row := by
  cases o with
  | sql s =>
    cases ch with
    | done =>
      obtain ⟨⟨x, u⟩, hx, hu⟩ := Option.map_eq_some_iff.1 ha
      cases hu
      exact exec_stamped h ho hx
    | fail e =>
      obtain ⟨_, hu⟩ := Option.ite_none_right_eq_some.1 ha
      cases hu
      exact iff_of_true h (spared_of_none rfl)
    | _ => cases ha
  | ext x =>
    refine iff_of_true (stamped_same h ?_) (spared_of_none (by cases ch <;> rfl))
    funext p ph
    exact answer_phaseRow ha nofun
  | fork ph =>
    refine iff_of_true (stamped_same h ?_) (spared_of_none (by cases ch <;> rfl))
    cases ch <;> cases ha
    rfl
  | waitpid | waitpidAgain => cases ch <;> cases ha

end Statements

theorem ensured_now (db : Db) (p : PortId) (ph : Phase) : (Db.ensured db p ph).now = db.now := by
  unfold Db.ensured
  split <;> rfl

theorem ensured_phaseRow (db : Db) (p q : PortId) (ph qh : Phase) : (Db.ensured db p ph).phaseRow q qh =
    if q = p ∧ qh = ph then some ((db.phaseRow q qh).getD (.fresh db.now)) else db.phaseRow q qh := by
  unfold Db.ensured
  split
  · rename_i hnone
    change put db.phaseRow p ph _ q qh = _
    rw [put_apply]
    split
    · rename_i he
      rw [he.1, he.2, hnone]
      rfl
    · rfl
  · rename_i hsome
    split
    · rename_i he
      obtain ⟨row, hrow⟩ := Option.ne_none_iff_exists'.1 hsome
      rw [he.1, he.2, hrow]
      rfl
    · rfl

section Marks
variable {choose : Op → Choice} (hc : ∀ s, choose (.sql s) = .done) {db : Db}
include hc

theorem drive_marks (p : PortId) (phs : List Phase) (db : Db) :
    ∃ db', drive choose (Prog.forEach phs fun ph => do
        let _ ← phaseResult p ph
        sql (.updateResultStatus p ph .skip)) db = some (.ret (), db') ∧ db'.now = db.now ∧
      ∀ q qh, db'.phaseRow q qh = if q = p ∧ qh ∈ phs then
        some { (db.phaseRow q qh).getD (.fresh db.now) with status := .skip } else db.phaseRow q qh := by
  induction phs generalizing db with
  | nil => exact ⟨db, rfl, rfl, by simp⟩
  | cons ph phs ih =>
    obtain ⟨db₂, hdrive, hnow, hrows⟩ := ih { Db.ensured db p ph with
      phaseRow := put (Db.ensured db p ph).phaseRow p ph
        (((Db.ensured db p ph).phaseRow p ph).map fun r => { r with status := .skip }) }
    refine ⟨db₂, (drive_bind_ret choose (a := ()) ?_).trans hdrive, ?_, fun q qh => ?_⟩
    · exact (drive_bind_ret choose (drive_phaseResult hc p ph db)).trans (drive_sql choose (hc _) rfl)
    · rw [hnow]
      exact ensured_now db p ph
    · rw [hrows]
      simp only [put_apply, ensured_phaseRow, ensured_now, List.mem_cons]
      by_cases hq : q = p <;> by_cases hqh : qh = ph <;> by_cases hin : qh ∈ phs <;>
        simp_all

/-- `mark_nonbuild_skip` run alone keeps the rows consistent just if those of the port are
all there and none of them is untested or running. -/
theorem marked_stamped_iff (h : Stamped db) (p : PortId) :
    ∃ db', drive choose (markNonbuildSkip p) db = some (.ret (), db') ∧
      (Stamped db' ↔ ∀ ph ≠ .build, ∃ row, db.phaseRow p ph = some row ∧ ¬ Pending row) := by
  obtain ⟨db', hdrive, -, hrows⟩ := drive_marks hc p (Phase.names.filter (· ≠ .build)) db
  refine ⟨db', hdrive, fun hstamped ph hph => ?_, fun hdone q qh row hrow => ?_⟩
  · have hmem : ph ∈ Phase.names.filter (· ≠ .build) := by simp [Phase.mem_names, hph]
    have hskip := hstamped p ph _ ((hrows p ph).trans (if_pos ⟨rfl, hmem⟩))
    cases hrow : db.phaseRow p ph with
    | none =>
      rw [hrow] at hskip
      exact absurd (.inl rfl) ((consistent_skipped (consistent_fresh db.now)).1 hskip)
    | some row =>
      rw [hrow] at hskip
      exact ⟨row, rfl, (consistent_skipped (h p ph row hrow)).1 hskip⟩
  · rw [hrows] at hrow
    split at hrow
    · rename_i hin
      obtain ⟨rfl, hmem⟩ := hin
      obtain ⟨old, hold, hnot⟩ := hdone qh (by simpa [Phase.mem_names] using hmem)
      rw [hold] at hrow
      cases hrow
      exact (consistent_skipped (h q qh old hold)).2 hnot
    · exact h q qh row hrow

end Marks

section Programs
variable {A : (o : Op) → Except Exn o.Res → Prop}

theorem ensureForPort_skips (p : PortId) : Uses Skips A (ensureForPort p) :=
  Uses.forEach fun _ _ => Uses.bind (phaseResult_uses trivial trivial) fun _ => Uses.pure _

theorem setResult_skips (machine : MachineId) (p : PortId) (st : Status) (msg type : String) :
    Uses Skips A (setResult machine p st msg type) :=
  setResult_uses trivial trivial trivial trivial fun _ _ _ => trivial

theorem markNonbuildSkip_skips (p : PortId) : Uses Skips A (markNonbuildSkip p) :=
  Uses.forEach fun _ _ => Uses.bind (phaseResult_uses trivial trivial) fun _ => Uses.issue rfl

theorem markIgnored_skips (machine : MachineId) (dump : Ignoring) (p : PortId) :
    Uses Skips A (markIgnored machine dump p) := by
  rw [markIgnored_eq]
  cases dump.message with
  | none => exact Uses.pure _
  | some msg =>
    exact Uses.bind (setResult_skips machine p .skip msg _) fun _ => markNonbuildSkip_skips p

theorem reset_skips (p : PortId) : Uses Skips A (reset p) := by
  refine reset_uses p fun s hs => ?_
  cases s with
  | updateResultStatus => cases hs
  | _ => trivial

theorem kindOp_skips {handled : Lock → Prop} {k : Kind} {o : Op} (h : KindOp handled k o) : Skips o := by
  cases o with
  | sql s =>
    cases s with
    | updateResultStatus p ph st =>
      cases k with
      | worker l => rcases h with h | ⟨_, h⟩ <;> cases h
      | burial l code =>
        rcases h with h | ⟨_, h⟩
        · cases h
        · split at h <;> cases h
      | killer l => rcases h with h | h <;> cases h
      | index q => exact h.2.2
      | _ => cases h
    | _ => trivial
  | _ => trivial

end Programs

/-- What writes rows of `port_phase_results`: indexing and its parts, the steps of a worker,
resets, and the recovery of a daemon and at its end. -/
inductive Routine where
  | ensureForPort (p : PortId)
  | markNonbuildSkip (p : PortId)
  | markIgnored (machine : MachineId) (dump : Ignoring) (p : PortId)
  | indexPort (machine : MachineId) (row : PortRow) (dump : Ignoring)
  | indexDepends (machine : MachineId) (p : PortId) (depends : List (Except String (PortId × String)))
  | setResultFail (machine : MachineId) (p : PortId) (msg : String)
  | setPhaseStatus (machine : MachineId) (p : PortId) (ph : Phase) (st : Status)
  | reset (p : PortId)
  | processDeadChild (l : Lock) (exitcode : ℕ)
  | killLock (l : Lock)

def Routine.prog : Routine → Magus Unit
  | ensureForPort p => MagusPort.ensureForPort p
  | markNonbuildSkip p => MagusPort.markNonbuildSkip p
  | markIgnored machine dump p => MagusTimestamps.markIgnored machine dump p
  | indexPort machine row dump => MagusPort.indexPort machine row dump.message
  | indexDepends machine p depends => MagusPort.indexDepends machine p depends
  | setResultFail machine p msg => MagusPort.setResultFail machine p msg
  | setPhaseStatus machine p ph st => MagusPort.setPhaseStatus machine p ph st
  | reset p => MagusPort.reset p
  | processDeadChild l exitcode => MagusWorker.processDeadChild l exitcode
  | killLock l => MagusWorker.killLock l

theorem Routine.skips (x : Routine) : Uses Skips (fun _ _ => True) x.prog := by
  cases x with
  | ensureForPort p => exact ensureForPort_skips p
  | markNonbuildSkip p => exact markNonbuildSkip_skips p
  | markIgnored machine dump p => exact markIgnored_skips machine dump p
  | indexPort machine row dump =>
    exact (indexPort_uses _ _ _).mono fun _ h => @kindOp_skips (fun _ => True) (.index _) _ h
  | indexDepends machine p depends =>
    exact (indexDepends_uses _ _ _).mono fun _ h => @kindOp_skips (fun _ => True) (.index _) _ h
  | setResultFail machine p msg => exact setResult_skips machine p .fail msg _
  | setPhaseStatus machine p ph st => exact setPhaseStatus_uses trivial trivial trivial
  | reset p => exact reset_skips p
  | processDeadChild l exitcode =>
    exact (processDeadChild_uses l _).mono fun _ h =>
      @kindOp_skips (fun _ => True) (.burial l exitcode) _ h
  | killLock l =>
    exact (killLock_uses l).mono fun _ h => @kindOp_skips (fun _ => True) (.killer l) _ h

/-- The database and any number of clients, each somewhere in a routine. -/
structure Clients where
  db : Db
  prog : Pid → Option (Magus Unit)

inductive Act where
  | start (pid : Pid) (x : Routine)
  | call (pid : Pid) (ch : Choice)
  | interrupt (pid : Pid) (e : Exn)
  /-- The client has come to its end, or it is killed. -/
  | stop (pid : Pid)
  | tick

namespace Clients

def start (db : Db) : Clients := ⟨db, fun _ => none⟩

def setProg (c : Clients) (pid : Pid) (q : Option (Magus Unit)) : Clients :=
  { c with prog := Function.update c.prog pid q }

def next (c : Clients) : Act → Option Clients
  | .start pid x => if c.prog pid = none then some (c.setProg pid (some x.prog)) else none
  | .call pid ch =>
    match c.prog pid with
    | some (.call o κ) => (answer c.db o ch).map fun (r, db) => { c with db := db }.setProg pid (some (κ r))
    | _ => none
  | .interrupt pid e =>
    match c.prog pid with
    | some (.call _ κ) => some (c.setProg pid (some (κ (.error e))))
    | _ => none
  | .stop pid => some (c.setProg pid none)
  | .tick => some { c with db := { c.db with now := c.db.now + 1 } }

def Step (c : Clients) (x : Act) (c' : Clients) : Prop := c.next x = some c'

/-- The step does not write 'skip' alone over a row that is untested or running. -/
def Spared (c : Clients) : Act → Prop
  | .call pid ch => ∀ row ∈ overwrittenBy c.db ch (c.prog pid), ¬ Pending row
  | _ => True

instance (c : Clients) : (x : Act) → Decidable (Spared c x)
  | .call _ _ => inferInstanceAs (Decidable (∀ row ∈ _, _))
  | .start .. | .interrupt .. | .stop _ | .tick => .isTrue trivial

def Skipping (c : Clients) : Prop := ∀ pid q, c.prog pid = some q → Uses (S := magus) Skips (fun _ _ => True) q

variable {c c' : Clients} {x : Act}

theorem Skipping.setProg (h : Skipping c) {pid : Pid} {q : Option (Magus Unit)} {db : Db}
    (hq : ∀ q', q = some q' → Uses (S := magus) Skips (fun _ _ => True) q') :
    Skipping ({ c with db := db }.setProg pid q) := by
  intro pid' q' hq'
  change Function.update c.prog pid q pid' = some q' at hq'
  rw [Function.update_apply] at hq'
  split at hq'
  · exact hq q' hq'
  · exact h pid' q' hq'

inductive Change (c : Clients) : Act → Clients → Prop where
  | start {pid : Pid} {x : Routine} (hfree : c.prog pid = none) :
      Change c (.start pid x) (c.setProg pid (some x.prog))
  | call {pid : Pid} {ch : Choice} {o : Op} {κ : Except Exn o.Res → Magus Unit} {r : Except Exn o.Res} {db : Db}
      (hq : c.prog pid = some (.call o κ)) (ha : answer c.db o ch = some (r, db)) :
      Change c (.call pid ch) ({ c with db := db }.setProg pid (some (κ r)))
  | interrupt {pid : Pid} {e : Exn} {o : Op} {κ : Except Exn o.Res → Magus Unit}
      (hq : c.prog pid = some (.call o κ)) :
      Change c (.interrupt pid e) (c.setProg pid (some (κ (.error e))))
  | stop {pid : Pid} : Change c (.stop pid) (c.setProg pid none)
  | tick : Change c .tick { c with db := { c.db with now := c.db.now + 1 } }

theorem step_change (hx : Step c x c') : Change c x c' := by
  cases x with
  | start pid x =>
    obtain ⟨hfree, hc⟩ := Option.ite_none_right_eq_some.1 hx
    cases hc
    exact .start hfree
  | call pid ch =>
    cases hq : c.prog pid with
    | none => simp [Step, next, hq] at hx
    | some q =>
      cases q with
      | call o κ =>
        rw [Step, next, hq] at hx
        obtain ⟨⟨r, db⟩, ha, rfl⟩ := Option.map_eq_some_iff.1 hx
        exact .call hq ha
      | _ => simp [Step, next, hq] at hx
  | interrupt pid e =>
    cases hq : c.prog pid with
    | none => simp [Step, next, hq] at hx
    | some q =>
      cases q with
      | call o κ =>
        rw [Step, next, hq] at hx
        cases hx
        exact .interrupt hq
      | _ => simp [Step, next, hq] at hx
  | stop pid =>
    cases hx
    exact .stop
  | tick =>
    cases hx
    exact .tick

theorem Skipping.change (h : Skipping c) (hx : Change c x c') : Skipping c' := by
  cases hx with
  | @start pid x hfree => exact h.setProg fun _ hq => Option.some.inj hq ▸ x.skips
  | call hq ha => exact h.setProg fun _ hκ => Option.some.inj hκ ▸ (h _ _ hq).2 _ trivial
  | interrupt hq => exact h.setProg fun _ hκ => Option.some.inj hκ ▸ (h _ _ hq).2 _ trivial
  | stop => exact h.setProg nofun
  | tick => exact h

theorem stamped_change (h : Skipping c) (hs : Stamped c.db) (hx : Change c x c') :
    Stamped c'.db ↔ Spared c x := by
  cases hx with
  | @call pid ch o κ r db hq ha =>
    change _ ↔ ∀ row ∈ overwrittenBy c.db ch (c.prog pid), ¬ Pending row
    rw [hq]
    exact answer_stamped hs (h pid _ hq).1 ha
  | _ => exact iff_of_true hs trivial

/-- All states of a run are consistent just if no step writes 'skip' alone over a row that
has its end still before it. -/
theorem stamped_iff {db : Db} {h : List (Clients × Act)} (empty : Stamped db)
    (run : Run Step (Clients.start db) h c) :
    (Stamped c.db ∧ ∀ y ∈ h, Stamped y.1.db) ↔ AllSteps Spared h :=
  run.always_iff Skipping (fun c => Stamped c.db) nofun empty
    (fun _ _ _ hc hx => hc.change (step_change hx)) fun _ _ _ hc hs hx => stamped_change hc hs (step_change hx)

def ran (pid : Pid) (x : Routine) (n : ℕ) : List Act :=
  .start pid x :: List.replicate n (.call pid .done) ++ [.stop pid]

def plainPort : PortRow := { id := 0, run := 1, name := "devel/lib", version := "1", pkgname := "lib" }

theorem fetched_stamped : ∃ h c, Run Step (Clients.start .empty) h c ∧ c.db.phaseStatus 0 .fetch = some .pass ∧
    Stamped c.db ∧ ∀ y ∈ h, Stamped y.1.db := by
  obtain ⟨h, c, run, hf⟩ := reached_of_history next (s := Clients.start .empty)
    (w := ran 1 (.indexPort 1 plainPort ⟨none, false⟩) 9 ++ ran 1 (.setPhaseStatus 1 0 .fetch .running) 2 ++
      .tick :: ran 1 (.setPhaseStatus 1 0 .fetch .pass) 2)
    (f := fun x => decide (x.2.db.phaseStatus 0 .fetch = some .pass) && x.1.all fun y => decide (Spared y.1 y.2))
    (by decide +kernel)
  simp only [Bool.and_eq_true, decide_eq_true_eq, List.all_eq_true] at hf
  exact ⟨h, c, run, hf.1, (stamped_iff stamped_empty run).2 hf.2⟩

/-- A port with an IGNORE is indexed: its fetch is skipped and has no end. -/
theorem ignored_unstamped : ∃ h c, Run Step (Clients.start .empty) h c ∧ ¬ Stamped c.db := by
  obtain ⟨h, c, run, hf⟩ := reached_of_history next (s := Clients.start .empty)
    (w := ran 1 (.indexPort 1 plainPort ⟨some "is broken", false⟩) 19)
    (f := fun x => decide (x.2.db.phaseRow 0 .fetch = some ⟨.skip, none, none, none, 0⟩))
    (by decide +kernel)
  refine ⟨h, c, run, fun hstamped => ?_⟩
  rcases (hstamped 0 .fetch _ (of_decide_eq_true hf)).finished.1 rfl with hst | hst <;> cases hst

end Clients

/-- The same of a step of the whole cluster. -/
def Spared (c : Cluster) : Event → Prop
  | .call pid ch => ∀ row ∈ overwrittenBy c.db ch ((c.procs pid).bind Proc.prog), ¬ Pending row
  | _ => True

theorem cluster_step {c c' : Cluster} {e : Event} (conduct : Conduct (fun _ => True) c)
    (h : Stamped c.db) (hm : Move c e c') : Stamped c'.db ↔ Spared c e := by
  cases hm with
  | @call pid ch proc o κ r db hproc hprog ha =>
    have ht : task c (.inl pid) = some ((procTask proc).1, .call o κ) := by
      rw [task_proc hproc, ← (withProg_task (w := κ r) hprog).1]
    change _ ↔ ∀ row ∈ overwrittenBy c.db ch ((c.procs pid).bind Proc.prog), ¬ Pending row
    rw [hproc, Option.bind_some, hprog]
    exact answer_stamped h (kindOp_skips (conduct.op ht)) ha
  | killChildren hstop hreap =>
    refine iff_of_true ?_ trivial
    rcases hstop with ⟨rfl, _⟩ | ⟨pid, l, code, q, _, hproc, rfl⟩ <;>
      rcases hreap with ⟨_, rfl⟩ | ⟨k, l, st, _, _, _, rfl⟩ <;> exact h
  | _ => exact iff_of_true h trivial

theorem cluster_iff {db : Db} {h : List (Cluster × Event)} {c : Cluster} (empty : Stamped db)
    (run : Run Cluster.Step (Cluster.start db) h c) :
    (Stamped c.db ∧ ∀ y ∈ h, Stamped y.1.db) ↔ AllSteps Spared h :=
  run.always_iff (fun c => Links c ∧ Conduct (fun _ => True) c) (fun c => Stamped c.db)
    ⟨Links.start db, Conduct.start db⟩ empty
    (fun c e _ hc hs => ⟨hc.1.step (Cluster.step_move hs), hc.2.step hc.1 (Cluster.step_move hs) (handles_all c e)⟩)
    fun _ _ _ hc h hs => cluster_step hc.2 h (Cluster.step_move hs)

end Mports.MagusTimestamps
