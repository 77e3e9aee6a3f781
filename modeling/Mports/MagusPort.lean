import Mports.MagusStatements

set_option autoImplicit false

namespace Mports.MagusPort
open MagusTables MagusStatements StatementPrograms

/-- `phase_result`: the row of the phase, inserted when there is none. -/
def phaseResult (p : PortId) (ph : Phase) : Magus Status := do
  let rows ← sql (.selectPhaseResults p)
  match rows.find? fun row => row.1 = ph with
  | some row => return row.2
  | none =>
    sql (.insertPhaseResult p ph)
    return .untested

def phaseStatus (p : PortId) (ph : Phase) : Magus Status := phaseResult p ph

def setPhaseStatus (machine : MachineId) (p : PortId) (ph : Phase) (st : Status) : Magus Unit := do
  let _ ← phaseResult p ph
  sql (.updatePhaseResult p ph st (some machine))

def noteEvent (machine : MachineId) (p : PortId) (type msg : String) (ph : Phase) (name : String) :
    Magus Unit :=
  sql (.insertEvent p ph type name msg machine)

def setResult (machine : MachineId) (p : PortId) (st : Status) (msg type : String) :
    Magus Unit := do
  sql (.updateStatus p st)
  setPhaseStatus machine p .build st
  noteEvent machine p type msg .build "Result"

def setResultSkip (machine : MachineId) (p : PortId) (msg : String) : Magus Unit :=
  setResult machine p .skip msg "skip"

def setResultInternal (machine : MachineId) (p : PortId) (msg : String) : Magus Unit :=
  setResult machine p .internal msg "internal"

def setResultFail (machine : MachineId) (p : PortId) (msg : String) : Magus Unit :=
  setResult machine p .fail msg "fail"

/-- `$log->phase eq 'fetch' && $self->phase_status('fetch') eq 'pass'`. -/
def keepsLog (p : PortId) (ph : Phase) : Magus Bool := do
  if ph = .fetch then
    let st ← phaseStatus p .fetch
    return st = .pass
  else return false

/-- The events and logs a reset deletes; the log of a passed fetch stays. -/
def resetLogs (p : PortId) : Magus Unit := do
  let events ← sql (.selectEvents p)
  Prog.forEach events fun id => sql (.deleteEvent id)
  let log ← sql (.selectLog p)
  Prog.when log (sql (.deleteLog p))
  let logs ← sql (.selectPhaseLogs p)
  Prog.forEach logs fun ph => do
    let keep ← keepsLog p ph
    Prog.when (¬ keep) (sql (.deletePhaseLog p ph))

/-- The loop over `phase_results`: every row but a passed fetch becomes untested. -/
def resetRows (p : PortId) : Magus Unit := do
  let rows ← sql (.selectPhaseResults p)
  Prog.forEach rows fun row =>
    Prog.when (¬ (row.1 = .fetch ∧ row.2 = .pass)) (sql (.updatePhaseResult p row.1 .untested none))

def reset (p : PortId) : Magus Unit := do
  resetLogs p
  resetRows p
  sql (.updateStatus p .untested)

/-- `PhaseResult::ensure_for_port`. -/
def ensureForPort (p : PortId) : Magus Unit :=
  Prog.forEach Phase.names fun ph => do let _ ← phaseResult p ph

/-- It writes the status column alone, not through `set_status`. -/
def markNonbuildSkip (p : PortId) : Magus Unit :=
  Prog.forEach (Phase.names.filter (· ≠ .build)) fun ph => do
    let _ ← phaseResult p ph
    sql (.updateResultStatus p ph .skip)

/-- The part of `Index::sync` that makes a port: its row, its phase rows and, when
the dump gives a reason to ignore it, the skip marks. -/
def indexPort (machine : MachineId) (row : PortRow) (ignore : Option String) : Magus Unit := do
  sql (.insertPort row)
  ensureForPort row.id
  match ignore with
  | none => return
  | some msg =>
    setResultSkip machine row.id msg
    markNonbuildSkip row.id

/-- The dependency loop of `Index::sync` for one port: the first entry that does
not resolve fails the port and ends its loop. -/
def indexDepends (machine : MachineId) (p : PortId) : List (Except String (PortId × String)) →
    Magus Unit
  | [] => .ret ()
  | .error missing :: _ => setResultFail machine p missing
  | .ok (dependency, type) :: rest => do
    sql (.insertDepend ⟨p, dependency, type⟩)
    indexDepends machine p rest

theorem find_phaseResults (db : Db) (p : PortId) (ph : Phase) :
    (Stmt.phaseResults db p).find? (fun row => row.1 = ph) =
      (db.phaseStatus p ph).map (ph, ·) := by
  unfold Stmt.phaseResults Phase.names
  cases h₁ : db.phaseStatus p .fetch <;> cases h₂ : db.phaseStatus p .build <;>
    cases h₃ : db.phaseStatus p .test <;> cases h₄ : db.phaseStatus p .scan <;>
    cases ph <;> simp [h₁, h₂, h₃, h₄]

theorem mem_phaseResults {db : Db} {p : PortId} {ph : Phase} {st : Status} :
    (ph, st) ∈ Stmt.phaseResults db p ↔ db.phaseStatus p ph = some st := by
  unfold Stmt.phaseResults
  constructor
  · intro h
    obtain ⟨ph', _, hst⟩ := List.mem_filterMap.1 h
    obtain ⟨st', hst', he⟩ := Option.map_eq_some_iff.1 hst
    cases he
    exact hst'
  · intro h
    exact List.mem_filterMap.2 ⟨ph, Phase.mem_names ph, by rw [h]; rfl⟩

/-- The row of a phase exists after `phase_result`, whatever the table held. -/
def Db.ensured (db : Db) (p : PortId) (ph : Phase) : Db :=
  if db.phaseRow p ph = none then
    { db with phaseRow := put db.phaseRow p ph (some (.fresh db.now)) }
  else db

section Drive
variable {choose : Op → Choice} (hc : ∀ s, choose (.sql s) = .done)
include hc

theorem drive_phaseResult (p : PortId) (ph : Phase) (db : Db) :
    drive choose (phaseResult p ph) db =
      some (.ret ((db.phaseStatus p ph).getD .untested), Db.ensured db p ph) := by
  refine (drive_bind_ret choose (drive_sql choose (hc _) rfl)).trans ?_
  rw [find_phaseResults]
  cases h : db.phaseRow p ph with
  | none =>
    have hs : db.phaseStatus p ph = none := by simp [Db.phaseStatus, h]
    simp only [hs, Option.map_none]
    refine (drive_bind_ret choose (drive_sql choose (hc _)
      (u := Db.ensured db p ph) (r := ()) ?_)).trans rfl
    simp [Stmt.exec, Db.ensured, h]
  | some row =>
    have hs : db.phaseStatus p ph = some row.status := by simp [Db.phaseStatus, h]
    simp [hs, Db.ensured, h, Prog.pure_eq]

theorem drive_setPhaseStatus (machine : MachineId) (p : PortId) (ph : Phase) (st : Status)
    (db : Db) : ∃ db', drive choose (setPhaseStatus machine p ph st) db = some (.ret (), db') ∧
      db'.phaseStatus p ph = some st ∧ db'.status = db.status := by
  refine ⟨_, (drive_bind_ret choose (drive_phaseResult hc p ph db)).trans
    (drive_sql choose (hc _) rfl), ?_, ?_⟩
  · unfold Db.ensured Db.phaseStatus
    cases h : db.phaseRow p ph <;> simp [h, Stmt.updatedRow]
  · unfold Db.ensured
    split <;> rfl

end Drive
end Mports.MagusPort
