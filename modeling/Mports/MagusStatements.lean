import Mports.MagusDepends
import Mports.StatementPrograms
import Mathlib.Algebra.GroupWithZero.Nat

set_option autoImplicit false

/-!
What a Magus process can do between two points where another process may run:
one SQL statement (the connection has AutoCommit set, so each is its own
transaction), one external command, or one process call.
-/
namespace Mports.MagusStatements
open MagusTables MagusDepends StatementPrograms

/-- `$@`: only its text is ever looked at. -/
abbrev Exn := String

/-- `$@ =~ m/pat/` for a pattern of plain letters. -/
def Matches (pat : String) (e : Exn) : Prop := pat.toList <:+: e.toList

instance (pat : String) (e : Exn) : Decidable (Matches pat e) :=
  inferInstanceAs (Decidable (_ <:+: _))

/-- `$SIG{TERM} = sub { die "SIGTERM\n" }` and its twin for INT. -/
def sigterm : Exn := "SIGTERM\n"
def sigint : Exn := "SIGINT\n"

abbrev Signal := { n : ℕ // 0 < n ∧ n < 127 }

instance byteNonzero : NeZero 256 := ⟨by decide⟩

inductive WaitStatus where
  | exited (code : Fin 256)
  | signaled (signal : Signal) (core : Bool)
  deriving DecidableEq, Repr

/-- The value of `$?`. -/
def WaitStatus.value : WaitStatus → ℕ
  | exited code => code.val * 256
  | signaled signal core => signal.val + if core then 128 else 0

/-- `$? >> 8`. -/
def WaitStatus.exitcode (st : WaitStatus) : ℕ := st.value >>> 8

@[simp] theorem WaitStatus.exitcode_exited (code : Fin 256) :
    (exited code).exitcode = code.val := by
  simp [exitcode, value, Nat.shiftRight_eq_div_pow]

@[simp] theorem WaitStatus.exitcode_signaled (signal : Signal) (core : Bool) :
    (signaled signal core).exitcode = 0 := by
  have h := signal.property
  simp only [exitcode, value, Nat.shiftRight_eq_div_pow]
  split <;> omega

theorem WaitStatus.value_eq_zero {st : WaitStatus} : st.value = 0 ↔ st = exited 0 := by
  cases st with
  | exited code =>
    simp only [value, exited.injEq, Fin.ext_iff, Fin.val_zero]
    omega
  | signaled signal core =>
    have h := signal.property
    simp only [value, reduceCtorEq, iff_false]
    omega

/-- The summaries `Magus::PortTest::run` ends with. -/
inductive Summary where
  | pass | warn | fail | skip
  deriving DecidableEq, Repr

def Summary.status : Summary → Status
  | pass => .pass
  | warn => .warn
  | fail => .fail
  | skip => .skip

structure SubResult where
  phase : String
  msg : String
  name : String
  deriving DecidableEq, Repr

structure Results where
  summary : Summary
  skips : List SubResult := []
  warnings : List SubResult := []
  errors : List SubResult := []
  log : Option String := none
  deriving DecidableEq, Repr

inductive Stmt where
  | selectLock (l : Lock)
  | selectStatus (p : PortId)
  | updateStatus (p : PortId) (st : Status)
  | selectPhaseResults (p : PortId)
  | insertPhaseResult (p : PortId) (ph : Phase)
  | updatePhaseResult (p : PortId) (ph : Phase) (st : Status) (machine : Option MachineId)
  | updateResultStatus (p : PortId) (ph : Phase) (st : Status)
  | selectEvents (p : PortId)
  | deleteEvent (id : ℕ)
  | insertEvent (p : PortId) (ph : Phase) (type name msg : String) (machine : MachineId)
  | selectLog (p : PortId)
  | deleteLog (p : PortId)
  | insertLog (p : PortId) (data : String)
  | selectPhaseLogs (p : PortId)
  | deletePhaseLog (p : PortId) (ph : Phase)
  | insertPhaseLog (p : PortId) (ph : Phase) (data : String)
  | deleteLock (l : Lock)
  | selectPhaseDepends (row : PortRow) (includeTest : Bool)
  | selectFetchDepends (row : PortRow)
  | selectDistfiles (p : PortId)
  | insertPort (row : PortRow)
  | insertDepend (d : Depend)
  deriving DecidableEq, Repr

namespace Stmt

@[reducible] def Res : Stmt → Type
  | selectLock _ | selectLog _ => Bool
  | selectStatus _ => Status
  | selectPhaseResults _ => List (Phase × Status)
  | selectEvents _ => List ℕ
  | selectPhaseLogs _ => List Phase
  | selectPhaseDepends _ _ | selectFetchDepends _ => List PortRow
  | selectDistfiles _ => List String
  | _ => Unit

/-- The `UPDATE` of `PhaseResult::set_status`, one CASE for each column. -/
def updatedRow (now : ℕ) (st : Status) (machine : Option MachineId) (r : PhaseRow) : PhaseRow where
  status := st
  machine := if st = .untested then none else machine
  updated := now
  started := if st = .running then some now else if st = .untested then none else r.started
  finished := if st = .running then none else if st = .untested then none else some now

def phaseResults (db : Db) (p : PortId) : List (Phase × Status) :=
  Phase.names.filterMap fun ph => (db.phaseStatus p ph).map (ph, ·)

/-- The answer and the tables after the statement, or nothing when a key forbids it.
The foreign keys leave no phase row for a port that is not there yet. -/
def exec (db : Db) : (s : Stmt) → Option (s.Res × Db)
  | selectLock l => some (decide (db.Locked l), db)
  | selectStatus p => some (db.status p, db)
  | updateStatus p st => some ((), { db with status := Function.update db.status p st })
  | selectPhaseResults p => some (phaseResults db p, db)
  | insertPhaseResult p ph =>
      if db.phaseRow p ph = none then
        some ((), { db with phaseRow := put db.phaseRow p ph (some (.fresh db.now)) })
      else none
  | updatePhaseResult p ph st machine =>
      some ((), { db with
        phaseRow := put db.phaseRow p ph ((db.phaseRow p ph).map (updatedRow db.now st machine)) })
  | updateResultStatus p ph st =>
      some ((), { db with
        phaseRow := put db.phaseRow p ph ((db.phaseRow p ph).map fun r => { r with status := st }) })
  | selectEvents p => some ((db.events.filter fun e => e.port = p).map (·.id), db)
  | deleteEvent id => some ((), { db with events := db.events.filter fun e => e.id ≠ id })
  | insertEvent p ph type name msg machine =>
      some ((), { db with
        events := db.events ++ [⟨db.nextEvent, p, ph, type, name, msg, machine⟩]
        nextEvent := db.nextEvent + 1 })
  | selectLog p => some ((db.log p).isSome, db)
  | deleteLog p => some ((), { db with log := Function.update db.log p none })
  | insertLog p data =>
      if db.log p = none then
        some ((), { db with log := Function.update db.log p (some data) })
      else none
  | selectPhaseLogs p => some (Phase.names.filter fun ph => (db.phaseLog p ph).isSome, db)
  | deletePhaseLog p ph =>
      some ((), { db with phaseLog := put db.phaseLog p ph none })
  | insertPhaseLog p ph data =>
      if db.phaseLog p ph = none then
        some ((), { db with phaseLog := put db.phaseLog p ph (some data) })
      else none
  | deleteLock l =>
      some ((), if db.Locked l then { db with lock := put db.lock l.port.id l.phase none } else db)
  | selectPhaseDepends row includeTest =>
      some (phaseDependsClosure db.tree row includeTest, db)
  | selectFetchDepends row => some (fetchDependsClosure db.tree row, db)
  | selectDistfiles p => some (db.distfiles p, db)
  | insertPort row => (db.tree.insertPort row).map fun T =>
      ((), { db with
        tree := T
        status := Function.update db.status row.id .untested
        phaseRow := Function.update db.phaseRow row.id fun _ => none })
  | insertDepend d => (db.tree.insertDepend d).map fun T => ((), { db with tree := T })

end Stmt

/-- Steps outside the database whose only effect on the model is that they can die. -/
inductive Action where
  | prepChroot
  | doChroot
  | injectDistfile (filename : String)
  | uploadDistfile (filename : String)
  deriving DecidableEq, Repr

/-- The commands whose outcome matters. `copyIn` and `copyOut` are the scp runs of a
package file out of and into `PkgfilesRoot`. -/
inductive Command where
  | copyIn (row : PortRow)
  | copyOut (row : PortRow)
  | clamav (row : PortRow)
  | yara
  deriving DecidableEq, Repr

/-- What a worker does outside the database. A command is answered with its wait
status and what it printed. -/
inductive External where
  | act (a : Action)
  | command (c : Command)
  | pkgfileExists (row : PortRow)
  | yaraTargets (row : PortRow)
  | yaraRulesExist
  | yaraTargetList (targets : List String)
  | sourceIntegrity (row : PortRow)
  | portTest (ph : Phase)
  deriving DecidableEq, Repr

@[reducible] def External.Res : External → Type
  | act _ => Unit
  | command _ => WaitStatus × String
  | pkgfileExists _ | yaraRulesExist => Bool
  | yaraTargets _ => List String
  | yaraTargetList _ => Option String
  | sourceIntegrity _ => ℕ × String × List SubResult
  | portTest _ => Results

/-- What `waitpid` comes back with: the child's status, or SIGINT in the wait. -/
inductive Waited where
  | done (st : WaitStatus)
  | interrupted
  deriving DecidableEq, Repr

inductive Op where
  | sql (s : Stmt)
  | ext (x : External)
  | fork (ph : Phase)
  /-- `waitpid($pid, 0)` for the child of the last fork. -/
  | waitpid
  /-- The same inside the SIGINT handler, which no further SIGINT interrupts. -/
  | waitpidAgain
  deriving DecidableEq, Repr

@[reducible] def Op.Res : Op → Type
  | .sql s => s.Res
  | .ext x => x.Res
  | .fork _ => Unit
  | .waitpid => Waited
  | .waitpidAgain => WaitStatus

@[reducible] def magus : Signature := ⟨Op, Op.Res, Exn, Fin 256⟩

abbrev Magus (α : Type) := Prog magus α

/-- What the environment decides when an operation is answered. -/
inductive Choice where
  | done
  | fail (e : Exn)
  | command (st : WaitStatus) (out : String)
  | files (names : List String)
  | flag (b : Bool)
  | trouble (msg : Option String)
  | integrity (out : String) (warnings : List SubResult)
  | results (r : Results)
  deriving DecidableEq, Repr

/-- A copy out of `PkgfilesRoot` succeeds only on a file that is there, one into it
leaves the file in place. -/
def Command.run (db : Db) : Command → WaitStatus → Option Db
  | copyIn row, st => if st = .exited 0 → db.PkgfileExists row then some db else none
  | copyOut row, st =>
      some (if st = .exited 0 then { db with pkgfiles := row.pkgfile :: db.pkgfiles } else db)
  | clamav _, _ | yara, _ => some db

/-- An external step as the environment chose it. Every return of
`run_source_integrity_scan` has exit code 0. -/
def External.run (db : Db) : (x : External) → Choice → Option (x.Res × Db)
  | act _, .done => some ((), db)
  | command c, .command st out => (c.run db st).map fun db' => ((st, out), db')
  | pkgfileExists row, .done => some (decide (db.PkgfileExists row), db)
  | yaraTargets _, .files names => some (names, db)
  | yaraRulesExist, .flag b => some (b, db)
  | yaraTargetList _, .trouble msg => some (msg, db)
  | sourceIntegrity _, .integrity out warnings => some ((0, out, warnings), db)
  | portTest _, .results r => some (r, db)
  | _, _ => none

def answer (db : Db) : (o : Op) → Choice → Option (Except Exn o.Res × Db)
  | .sql s, .done => (s.exec db).map fun (r, db') => (.ok r, db')
  | .sql _, .fail e => if Matches "DBI" e then some (.error e, db) else none
  | .ext _, .fail e => some (.error e, db)
  | .ext x, ch => (x.run db ch).map fun (r, db') => (.ok r, db')
  | .fork _, .fail e => some (.error e, db)
  | _, _ => none

def sql (s : Stmt) : Magus s.Res := Prog.issue (S := magus) (.sql s)
def ext (x : External) : Magus x.Res := Prog.issue (S := magus) (.ext x)

/-- The program alone with the database, every choice made by `choose`. -/
def drive {α : Type} (choose : Op → Choice) : Magus α → Db → Option (Exit magus α × Db)
  | .ret a, db => some (.ret a, db)
  | .raise e, db => some (.raise e, db)
  | .exit c, db => some (.exit c, db)
  | .call o k, db => (answer db o (choose o)).bind fun x => drive choose (k x.1) x.2

section Drive
variable {α β : Type} (choose : Op → Choice)

@[simp] theorem drive_ret (a : α) (db : Db) :
    drive choose (.ret a) db = some (.ret a, db) := rfl

@[simp] theorem drive_raise (e : Exn) (db : Db) :
    drive choose (.raise e : Magus α) db = some (.raise e, db) := rfl

theorem drive_bind (p : Magus α) (f : α → Magus β) (db : Db) :
    drive choose (p.bind f) db = (drive choose p db).bind fun
      | (.ret a, db') => drive choose (f a) db'
      | (.raise e, db') => some (.raise e, db')
      | (.exit c, db') => some (.exit c, db') := by
  induction p generalizing db with
  | ret a => rfl
  | raise e => rfl
  | exit c => rfl
  | call o k ih =>
    simp only [Prog.bind, drive, Option.bind_assoc]
    congr 1
    funext x
    exact ih x.1 x.2

theorem drive_bind_ret {p : Magus α} {f : α → Magus β} {db db' : Db} {a : α}
    (h : drive choose p db = some (.ret a, db')) :
    drive choose (p >>= f) db = drive choose (f a) db' := by
  rw [Prog.bind_eq, drive_bind, h]
  rfl

theorem drive_bind_inv {p : Magus α} {f : α → Magus β} {db db' : Db} {b : β}
    (h : drive choose (p >>= f) db = some (.ret b, db')) :
    ∃ a db₁, drive choose p db = some (.ret a, db₁) ∧
      drive choose (f a) db₁ = some (.ret b, db') := by
  rw [Prog.bind_eq, drive_bind] at h
  obtain ⟨⟨x, db₁⟩, hp, hf⟩ := Option.bind_eq_some_iff.1 h
  cases x with
  | ret a => exact ⟨a, db₁, hp, hf⟩
  | raise e => cases hf
  | exit c => cases hf

theorem drive_uses {P : Op → Prop} {I : Db → Prop} {p : Magus α} {x : Exit magus α} {db db' : Db}
    (hp : Uses P (fun _ _ => True) p)
    (keep : ∀ o db ch r db', P o → answer db o ch = some (r, db') → I db → I db')
    (h : drive choose p db = some (x, db')) (start : I db) : I db' := by
  induction p generalizing db with
  | call o k ih =>
    obtain ⟨⟨r, db₁⟩, ha, hk⟩ := Option.bind_eq_some_iff.1 h
    exact ih r (hp.2 r trivial) hk (keep o db _ r db₁ hp.1 ha start)
  | _ =>
    cases h
    exact start

theorem drive_sql {s : Stmt} {r : s.Res} {db u : Db} (hc : choose (.sql s) = .done)
    (h : s.exec db = some (r, u)) : drive choose (sql s) db = some (.ret r, u) := by
  simp [drive, sql, Prog.issue, answer, hc, h]

theorem drive_ext {x : External} {r : x.Res} {db db' : Db} (hc : ∀ e, choose (.ext x) ≠ .fail e)
    (h : x.run db (choose (.ext x)) = some (r, db')) :
    drive choose (ext x) db = some (.ret r, db') := by
  have ha : answer db (.ext x) (choose (.ext x)) = some (.ok r, db') := by
    cases hch : choose (.ext x) with
    | fail e => exact absurd hch (hc e)
    | _ => rw [hch] at h; simp [answer, h]
  simp [drive, ext, Prog.issue, ha]

/-- Whether a driven program returns with `Q`, to be computed on a given database. -/
def returns (Q : Db → Prop) [DecidablePred Q] : Option (Exit magus Unit × Db) → Bool
  | some (.ret _, db) => decide (Q db)
  | _ => false

theorem drive_returns {p : Magus Unit} {s : Db} {Q : Db → Prop} [DecidablePred Q]
    (h : returns Q (drive choose p s) = true) :
    ∃ t, drive choose p s = some (.ret (), t) ∧ Q t := by
  unfold returns at h
  split at h
  · exact ⟨_, ‹_›, by simpa using h⟩
  · cases h

theorem drive_forEach {w : List β} {f : β → Magus Unit} {I : Db → Prop} {s : Db}
    (h : ∀ x ∈ w, ∀ db, I db → ∃ db', drive choose (f x) db = some (.ret (), db') ∧ I db')
    (start : I s) : ∃ db', drive choose (Prog.forEach w f) s = some (.ret (), db') ∧ I db' := by
  induction w generalizing s with
  | nil => exact ⟨s, rfl, start⟩
  | cons x xs ih =>
    obtain ⟨db₁, h₁, hI⟩ := h x (by simp) s start
    obtain ⟨db₂, h₂, hI₂⟩ := ih (fun y hy => h y (List.mem_cons_of_mem _ hy)) hI
    exact ⟨db₂, (drive_bind_ret choose h₁).trans h₂, hI₂⟩

/-- What one round of a loop makes and every round keeps is there when the loop returns. -/
theorem drive_forEach_makes {w : List β} {f : β → Magus Unit} {I : Db → Prop} {x : β} {s t : Db}
    (hx : x ∈ w) (make : ∀ s t, drive choose (f x) s = some (.ret (), t) → I t)
    (keep : ∀ y ∈ w, ∀ s t, drive choose (f y) s = some (.ret (), t) → I s → I t)
    (h : drive choose (Prog.forEach w f) s = some (.ret (), t)) : I t := by
  have kept : ∀ (w' : List β) (s : Db), (∀ y ∈ w', y ∈ w) → I s →
      drive choose (Prog.forEach w' f) s = some (.ret (), t) → I t := by
    intro w'
    induction w' with
    | nil =>
      intro s _ hI h
      cases h
      exact hI
    | cons y ys ih =>
      intro s hw hI h
      obtain ⟨_, s₁, hy, hys⟩ := drive_bind_inv choose h
      exact ih s₁ (fun z hz => hw z (List.mem_cons_of_mem _ hz)) (keep y (hw y (by simp)) s s₁ hy hI) hys
  have found : ∀ (w' : List β) (s : Db), (∀ y ∈ w', y ∈ w) → x ∈ w' →
      drive choose (Prog.forEach w' f) s = some (.ret (), t) → I t := by
    intro w'
    induction w' with
    | nil => intro s _ hx; cases hx
    | cons y ys ih =>
      intro s hw hx h
      obtain ⟨_, s₁, hy, hys⟩ := drive_bind_inv choose h
      have hrest : ∀ z ∈ ys, z ∈ w := fun z hz => hw z (List.mem_cons_of_mem _ hz)
      rcases List.mem_cons.1 hx with rfl | hx
      · exact kept ys s₁ hrest (make s s₁ hy) hys
      · exact ih s₁ hrest hx hys
  exact found w s (fun _ hy => hy) hx h

end Drive
end Mports.MagusStatements
