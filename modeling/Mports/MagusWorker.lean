import Mports.MagusReady
import Mports.MagusScan
import Mports.PerlText

set_option autoImplicit false

namespace Mports.MagusWorker
open MagusTables MagusStatements MagusPort MagusScan StatementPrograms

def act (a : Action) : Magus Unit := ext (.act a)

def notBuilt (scheduled : String) (depend : PortRow) : Exn :=
  "Port was scheduled as ready " ++ scheduled ++ depend.pkgname ++
    " had not been built successfully.\n"

/-- The loop of `inject_depends` and its twin: a port with a package is copied in. -/
def injectAll (scheduled : String) (depends : List PortRow) : Magus Unit :=
  Prog.forEach depends fun depend => do
    let st ← sql (.selectStatus depend.id)
    if st.Good then injectPkgfile depend else Prog.raise (notBuilt scheduled depend)

def injectDepends (l : Lock) : Magus Unit := do
  let depends ← sql (.selectPhaseDepends l.port (l.phase = .test))
  injectAll ("for " ++ l.phase.text ++ ", but ") depends

def injectFetchDepends (l : Lock) : Magus Unit := do
  let depends ← sql (.selectFetchDepends l.port)
  injectAll "to fetch, but fetch dependency " depends

def injectDistfiles (l : Lock) : Magus Unit := do
  let files ← sql (.selectDistfiles l.port.id)
  Prog.forEach files fun file => act (.injectDistfile file)

def uploadDistfiles (l : Lock) : Magus Unit := do
  let files ← sql (.selectDistfiles l.port.id)
  Prog.forEach files fun file => act (.uploadDistfile file)

/-- The handler's `set_result_internal` or its counterpart for another phase. -/
def recordException (l : Lock) (error : Exn) : Magus Unit := do
  let msg := "Exception thrown: " ++ error
  if l.phase = .build then
    setResultInternal l.machine l.port.id msg
  else
    setPhaseStatus l.machine l.port.id l.phase .internal
    noteEvent l.machine l.port.id "internal" msg l.phase "Exception"

def insertResults (l : Lock) (results : Results) : Magus Unit := do
  Prog.when (l.phase = .build) (sql (.updateStatus l.port.id results.summary.status))
  setPhaseStatus l.machine l.port.id l.phase results.summary.status
  let note := fun type => fun sr : SubResult =>
    noteEvent l.machine l.port.id type sr.msg l.phase sr.name
  Prog.forEach results.skips (note "skip")
  Prog.forEach results.warnings (note "warn")
  Prog.forEach results.errors (note "fail")
  match results.log with
  | none => return
  | some data =>
    replacePhaseLog l.port.id l.phase data
    Prog.when (l.phase = .build) do
      sql (.deleteLog l.port.id)
      sql (.insertLog l.port.id data)

/-- The forked child of `run_make_phase`. Whatever happens, it ends in `exit(0)`. -/
def makeChild (l : Lock) : Magus Unit := do
  Prog.tryCatch
    (do
      act .doChroot
      let results ← ext (.portTest l.phase)
      insertResults l results)
    fun error =>
      if Matches "SIGINT" error ∨ Matches "DBI" error then Prog.exit 0
      else Prog.tryCatch (recordException l error) fun _ => return
  Prog.exit 0

def runMakePhase (l : Lock) : Magus Unit := do
  Prog.issue (S := magus) (.fork l.phase)
  match ← Prog.issue (S := magus) .waitpid with
  | .interrupted =>
    let _ ← Prog.issue (S := magus) .waitpidAgain
    reset l.port.id
    Prog.exit 0
  | .done st =>
    if st.value = 0 then
      let _ ← sql (.selectStatus l.port.id)
      return
    else Prog.raise ("Child exited unexpectedly: " ++ toString st.value ++ "\n")

def buildPhase (l : Lock) : Magus Unit := do
  injectDepends l
  injectDistfiles l
  runMakePhase l
  let st ← sql (.selectStatus l.port.id)
  Prog.when st.Good do
    uploadPkgfile l.port
    uploadDistfiles l

def fetchPhase (l : Lock) : Magus Unit := do
  injectFetchDepends l
  injectDistfiles l
  runMakePhase l
  let st ← phaseStatus l.port.id .fetch
  Prog.when st.Good (uploadDistfiles l)

def testPhase (l : Lock) : Magus Unit := do
  injectDepends l
  injectPkgfile l.port
  injectDistfiles l
  runMakePhase l

def runPhase (l : Lock) : Magus Unit :=
  match l.phase with
  | .scan => runScanPhase l.machine l.port
  | .build => do act .prepChroot; buildPhase l
  | .fetch => do act .prepChroot; fetchPhase l
  | .test => do act .prepChroot; testPhase l

/-- The `eval` block of `Worker::run` once the port of the lock is known. -/
def runBody (l : Lock) : Magus Unit := do
  setPhaseStatus l.machine l.port.id l.phase .running
  noteEvent l.machine l.port.id "info" (l.phase.title ++ " Started") l.phase "PhaseStarted"
  runPhase l
  let st ← phaseStatus l.port.id l.phase
  noteEvent l.machine l.port.id st.text (l.phase.title ++ " complete.") l.phase "PhaseComplete"

/-- What follows the `eval`: a lost database is reported as exit code 6, a signal
ends the worker, and any other exception is recorded in the port. -/
def afterException (l : Lock) (error : Exn) : Magus Unit :=
  if Matches "DBI" error then Prog.exit 6
  else if Matches "SIGINT" error ∨ Matches "SIGTERM" error then return
  else Prog.tryCatch (recordException l error) fun error' =>
    if Matches "DBI" error' then Prog.exit 6 else return

/-- The texts after which `Worker::run` returns as if the phase were over. -/
def Silent (e : Exn) : Prop := ¬ Matches "DBI" e ∧ (Matches "SIGINT" e ∨ Matches "SIGTERM" e)

instance (e : Exn) : Decidable (Silent e) := inferInstanceAs (Decidable (_ ∧ _))

theorem not_silent_childExited (n : ℕ) :
    ¬ Silent ("Child exited unexpectedly: " ++ toString n ++ "\n") := by
  have hS : 'S' ∉ ("Child exited unexpectedly: " ++ toString n ++ "\n").toList := by
    have hdigits : 'S' ∉ (toString n).toList :=
      fun h => absurd (PerlText.toString_isDigit n _ h) (by decide)
    simp only [String.toList_append, List.mem_append, not_or]
    exact ⟨⟨by decide, hdigits⟩, by decide⟩
  rintro ⟨_, h | h⟩
  · exact hS (h.subset (by decide))
  · exact hS (h.subset (by decide))

/-- `Worker::run`. Without the lock's row there is no port, and the exception this
raises finds no port to be recorded in. -/
def run (l : Lock) : Magus Unit :=
  Prog.tryCatch
    (do
      let found ← sql (.selectLock l)
      Prog.when found (runBody l))
    (afterException l)

/-- One corpse of `process_dead_children`. -/
def processDeadChild (l : Lock) (exitcode : ℕ) : Magus Unit := do
  Prog.when (exitcode = 6) <|
    if l.phase = .build then reset l.port.id
    else setPhaseStatus l.machine l.port.id l.phase .untested
  sql (.deleteLock l)

/-- One lock of the loop in `kill_children`. -/
def killLock (l : Lock) : Magus Unit := do
  reset l.port.id
  sql (.deleteLock l)

end Mports.MagusWorker
