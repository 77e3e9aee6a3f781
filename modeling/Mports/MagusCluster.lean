import Mports.LabelledRuns
import Mports.MagusWorker

set_option autoImplicit false

/-!
The build cluster: one database, any number of slave daemons (one a machine), their
workers and make children, and whoever resets or indexes a port from outside. A step is
one statement or external command of one process, or one move of a daemon. A pid
names its process until nobody remembers it.
-/
namespace Mports.MagusCluster
open MagusTables MagusStatements MagusPort MagusReady MagusWorker

abbrev Pid := ℕ

/-- A process, or what its parent still holds of it. A worker holds the pid of its
last make child, and whether SIGINT is blocked in it. -/
inductive Proc where
  | worker (l : Lock) (prog : Magus Unit) (child : Option Pid) (masked : Bool)
  /-- A worker that has exited and was not waited for yet. -/
  | exited (l : Lock) (st : WaitStatus)
  /-- An entry of `@DeadChildren`. -/
  | dead (l : Lock) (exitcode : ℕ)
  /-- The same entry while `process_dead_children` is at it. -/
  | burial (l : Lock) (exitcode : ℕ) (prog : Magus Unit)
  | makeChild (worker : Pid) (l : Lock) (prog : Magus Unit)
  | makeChildExited (worker : Pid) (l : Lock) (st : WaitStatus)
  /-- `kill_children` at one lock. -/
  | killer (l : Lock) (prog : Magus Unit)
  /-- `reset_port.cgi`. -/
  | resetPort (p : PortId) (prog : Magus Unit)
  /-- `Index::sync` at one port. -/
  | index (p : PortId) (prog : Magus Unit)

namespace Proc

def prog : Proc → Option (Magus Unit)
  | worker _ q _ _ | burial _ _ q | makeChild _ _ q | killer _ q | resetPort _ q | index _ q => some q
  | exited _ _ | dead _ _ | makeChildExited _ _ _ => none

def withProg (q : Magus Unit) : Proc → Proc
  | worker l _ child masked => worker l q child masked
  | burial l code _ => burial l code q
  | makeChild w l _ => makeChild w l q
  | killer l _ => killer l q
  | resetPort p _ => resetPort p q
  | index p _ => index p q
  | proc => proc

def lock : Proc → Option Lock
  | worker l _ _ _ | exited l _ | dead l _ | burial l _ _ => some l
  | _ => none

@[simp] theorem withProg_lock (q : Magus Unit) (proc : Proc) : (proc.withProg q).lock = proc.lock := by
  cases proc <;> rfl

/-- The locks `kill_children` has read and is going to delete. -/
def kills : Proc → List Lock
  | killer l _ => [l]
  | _ => []

@[simp] theorem withProg_kills (q : Magus Unit) (proc : Proc) :
    (proc.withProg q).kills = proc.kills := by
  cases proc <;> rfl

end Proc

/-- Where a daemon is in `main`. -/
inductive Daemon where
  | main
  /-- In `get_ready_lock`, between the SELECT and the INSERT. -/
  | picked (row : PortRow) (ph : Phase)
  /-- With a lock in hand, before the fork of `start_child`. -/
  | hand (l : Lock)
  | burying (pid : Pid)
  | killing (todo : List Lock)
  | killingPort (pid : Pid) (todo : List Lock)

namespace Daemon

def lock : Daemon → Option Lock
  | hand l => some l
  | _ => none

def kills : Daemon → List Lock
  | killing todo | killingPort _ todo => todo
  | _ => []

end Daemon

structure Cluster where
  db : Db
  procs : Pid → Option Proc
  daemon : MachineId → Daemon
  /-- The keys of each daemon's `%Children`. -/
  children : MachineId → List Pid

inductive Interrupt where
  | int | term
  deriving DecidableEq, Repr

def Interrupt.exn : Interrupt → Exn
  | int => sigint
  | term => sigterm

inductive Event where
  | call (pid : Pid) (ch : Choice)
  | fork (pid child : Pid)
  | waited (pid : Pid)
  | interrupt (pid : Pid) (sig : Interrupt)
  | signal (pid : Pid) (sig : Signal) (core : Bool)
  | exit (pid : Pid)
  | select (machine : MachineId) (run : RunId) (configured : Option (List String)) (ph : Phase)
      (row : PortRow)
  | insert (machine : MachineId)
  | giveUp (machine : MachineId)
  | startChild (machine : MachineId) (pid : Pid)
  | forkFailed (machine : MachineId)
  | reap (pid : Pid)
  | bury (pid : Pid)
  | killChildren (machine : MachineId) (kid : Option Pid)
  | killNext (machine : MachineId) (pid : Pid)
  | resetPort (pid : Pid) (p : PortId)
  | index (pid : Pid) (machine : MachineId) (row : PortRow) (ignore : Option String)
  | indexDepends (pid : Pid) (machine : MachineId) (p : PortId)
      (depends : List (Except String (PortId × String)))
  | tick

namespace Cluster

def start (db : Db) : Cluster := ⟨db, fun _ => none, fun _ => .main, fun _ => []⟩

def setProc (c : Cluster) (pid : Pid) (proc : Option Proc) : Cluster :=
  { c with procs := Function.update c.procs pid proc }

def setDaemon (c : Cluster) (machine : MachineId) (d : Daemon) : Cluster :=
  { c with daemon := Function.update c.daemon machine d }

def setChildren (c : Cluster) (machine : MachineId) (pids : List Pid) : Cluster :=
  { c with children := Function.update c.children machine pids }

def setDb (c : Cluster) (db : Db) : Cluster := { c with db := db }

/-- How a program that has ended leaves its process. An exception that got out of
`Worker::run` would be met by the `eval` around `start_child`, which exits with 0. -/
def exitStatus : Magus Unit → Option WaitStatus
  | .ret _ | .raise _ => some (.exited 0)
  | .exit code => some (.exited code)
  | .call _ _ => none

def call (c : Cluster) (pid : Pid) (ch : Choice) : Option Cluster := do
  let proc ← c.procs pid
  match ← proc.prog with
  | .call o k =>
    let (r, db) ← answer c.db o ch
    return (c.setDb db).setProc pid (proc.withProg (k r))
  | _ => none

def fork (c : Cluster) (pid child : Pid) : Option Cluster := do
  match ← c.procs pid with
  | .worker l (.call (.fork _) k) _ masked =>
    if c.procs child = none then
      return (c.setProc pid (some (.worker l (k (.ok ())) (some child) masked))).setProc child
        (some (.makeChild pid l (makeChild l)))
    else none
  | _ => none

def childStatus (c : Cluster) (pid child : Pid) : Option WaitStatus :=
  match c.procs child with
  | some (.makeChildExited w _ st) => if w = pid then some st else none
  | _ => none

/-- `waitpid` comes back because the child has exited. -/
def waited (c : Cluster) (pid : Pid) : Option Cluster := do
  match ← c.procs pid with
  | .worker l (.call .waitpid k) (some child) masked =>
    let st ← c.childStatus pid child
    return (c.setProc pid (some (.worker l (k (.ok (.done st))) none masked))).setProc child none
  | .worker l (.call .waitpidAgain k) (some child) masked =>
    let st ← c.childStatus pid child
    return (c.setProc pid (some (.worker l (k (.ok st)) none masked))).setProc child none
  | _ => none

/-- SIGINT or SIGTERM arrives. It dies where the process is, except that a SIGINT in
`waitpid` goes to the handler of `run_make_phase`, during which it is blocked. -/
def interrupt (c : Cluster) (pid : Pid) (sig : Interrupt) : Option Cluster := do
  match ← c.procs pid with
  | .worker l (.call o k) child masked =>
    match o, k, sig, masked with
    | .waitpid, k, .int, _ =>
      return c.setProc pid (some (.worker l (k (.ok .interrupted)) child true))
    | _, _, .int, true => none
    | _, k, sig, _ => return c.setProc pid (some (.worker l (k (.error sig.exn)) child false))
  | .makeChild w l (.call _ k) =>
    return c.setProc pid (some (.makeChild w l (k (.error sig.exn))))
  | _ => none

def signal (c : Cluster) (pid : Pid) (st : WaitStatus) : Option Cluster := do
  match ← c.procs pid with
  | .worker l _ _ _ => return c.setProc pid (some (.exited l st))
  | .makeChild w l _ => return c.setProc pid (some (.makeChildExited w l st))
  | _ => none

def exit (c : Cluster) (pid : Pid) : Option Cluster := do
  match ← c.procs pid with
  | .worker l q _ _ => return c.setProc pid (some (.exited l (← exitStatus q)))
  | .makeChild w l q => return c.setProc pid (some (.makeChildExited w l (← exitStatus q)))
  | .burial l code q =>
    match q, c.daemon l.machine with
    | .ret _, .burying _ => return (c.setProc pid none).setDaemon l.machine .main
    | .raise _, .burying _ => return (c.setProc pid (some (.dead l code))).setDaemon l.machine .main
    | _, _ => none
  | .killer l q =>
    match q, c.daemon l.machine with
    | .ret _, .killingPort _ todo => return (c.setProc pid none).setDaemon l.machine (.killing todo)
    | .raise _, .killingPort _ _ => return (c.setProc pid none).setDaemon l.machine .main
    | _, _ => none
  | .resetPort _ q | .index _ q => let _ ← exitStatus q; return c.setProc pid none
  | _ => none

/-- The SELECTs of `get_ready_lock`. -/
def select (c : Cluster) (machine : MachineId) (run : RunId) (configured : Option (List String))
    (ph : Phase) (row : PortRow) : Option Cluster :=
  match c.daemon machine with
  | .main =>
    if Selects c.db run (workerPhases configured) ph row then
      some (c.setDaemon machine (.picked row ph))
    else none
  | _ => none

/-- The INSERT of `_get_lock`: a duplicate sends `get_ready_lock` around again. -/
def insert (c : Cluster) (machine : MachineId) : Option Cluster :=
  match c.daemon machine with
  | .picked row ph =>
    if c.db.lock row.id ph = none then
      some ((c.setDb { c.db with
          lock := put c.db.lock row.id ph (some ⟨c.db.nextLock, machine⟩)
          nextLock := c.db.nextLock + 1 }).setDaemon machine
        (.hand ⟨c.db.nextLock, row, ph, machine⟩))
    else some (c.setDaemon machine .main)
  | _ => none

/-- A database exception in `get_ready_lock`. -/
def giveUp (c : Cluster) (machine : MachineId) : Option Cluster :=
  match c.daemon machine with
  | .picked _ _ => some (c.setDaemon machine .main)
  | _ => none

def startChild (c : Cluster) (machine : MachineId) (pid : Pid) : Option Cluster :=
  match c.daemon machine with
  | .hand l =>
    if c.procs pid = none then
      let c := c.setProc pid (some (.worker l (run l) none false))
      some ((c.setChildren machine (pid :: c.children machine)).setDaemon machine .main)
    else none
  | _ => none

/-- `start_child` dies: nobody keeps the lock. -/
def forkFailed (c : Cluster) (machine : MachineId) : Option Cluster :=
  match c.daemon machine with
  | .hand _ => some (c.setDaemon machine .main)
  | _ => none

def reap (c : Cluster) (pid : Pid) : Option Cluster := do
  match ← c.procs pid with
  | .exited l st =>
    if pid ∈ c.children l.machine then
      let c := c.setProc pid (some (.dead l st.exitcode))
      return c.setChildren l.machine ((c.children l.machine).erase pid)
    else none
  | _ => none

def bury (c : Cluster) (pid : Pid) : Option Cluster := do
  match ← c.procs pid with
  | .dead l code =>
    match c.daemon l.machine with
    | .main =>
      let c := c.setProc pid (some (.burial l code (processDeadChild l code)))
      return c.setDaemon l.machine (.burying pid)
    | _ => none
  | _ => none

/-- A signal handler runs instead of whatever `main` was doing. -/
def leaveMain (c : Cluster) (machine : MachineId) : Option Cluster :=
  match c.daemon machine with
  | .main | .picked _ _ | .hand _ => some c
  | .burying pid =>
    match c.procs pid with
    | some (.burial l code _) => some (c.setProc pid (some (.dead l code)))
    | _ => none
  | _ => none

/-- When there are children, `kill_children` waits for one of them, whose lock is forgotten. -/
def waitForKid (c stopped : Cluster) (machine : MachineId) : Option Pid → Option Cluster
  | none => if c.children machine = [] then some stopped else none
  | some kid =>
    match c.procs kid with
    | some (.exited l _) => if l.machine = machine then some (stopped.setProc kid none) else none
    | _ => none

/-- `kill_children` up to its loop over the locks of the machine. -/
def killChildren (c : Cluster) (machine : MachineId) (kid : Option Pid) : Option Cluster :=
  (c.leaveMain machine).bind fun stopped => (c.waitForKid stopped machine kid).map fun reaped =>
    reaped.setDaemon machine (.killing (machineLocks c.db machine))

def killNext (c : Cluster) (machine : MachineId) (pid : Pid) : Option Cluster :=
  match c.daemon machine with
  | .killing (l :: todo) =>
    if c.procs pid = none then
      some ((c.setProc pid (some (.killer l (killLock l)))).setDaemon machine
        (.killingPort pid todo))
    else none
  | _ => none

def spawn (c : Cluster) (pid : Pid) (proc : Proc) : Option Cluster :=
  if c.procs pid = none then some (c.setProc pid (some proc)) else none

def next (c : Cluster) : Event → Option Cluster
  | .call pid ch => c.call pid ch
  | .fork pid child => c.fork pid child
  | .waited pid => c.waited pid
  | .interrupt pid sig => c.interrupt pid sig
  | .signal pid sig core => c.signal pid (.signaled sig core)
  | .exit pid => c.exit pid
  | .select machine run configured ph row => c.select machine run configured ph row
  | .insert machine => c.insert machine
  | .giveUp machine => c.giveUp machine
  | .startChild machine pid => c.startChild machine pid
  | .forkFailed machine => c.forkFailed machine
  | .reap pid => c.reap pid
  | .bury pid => c.bury pid
  | .killChildren machine kid => c.killChildren machine kid
  | .killNext machine pid => c.killNext machine pid
  | .resetPort pid p => c.spawn pid (.resetPort p (MagusPort.reset p))
  | .index pid machine row ignore => c.spawn pid (.index row.id (indexPort machine row ignore))
  | .indexDepends pid machine p depends =>
      c.spawn pid (.index p (indexDepends machine p depends))
  | .tick => some (c.setDb { c.db with now := c.db.now + 1 })

def Step (c : Cluster) (e : Event) (c' : Cluster) : Prop := c.next e = some c'

@[simp] theorem setProc_db (c : Cluster) (pid : Pid) (proc : Option Proc) :
    (c.setProc pid proc).db = c.db := rfl

@[simp] theorem setProc_daemon (c : Cluster) (pid : Pid) (proc : Option Proc) :
    (c.setProc pid proc).daemon = c.daemon := rfl

@[simp] theorem setDaemon_db (c : Cluster) (machine : MachineId) (d : Daemon) :
    (c.setDaemon machine d).db = c.db := rfl

@[simp] theorem setDaemon_procs (c : Cluster) (machine : MachineId) (d : Daemon) :
    (c.setDaemon machine d).procs = c.procs := rfl

@[simp] theorem setChildren_db (c : Cluster) (machine : MachineId) (pids : List Pid) :
    (c.setChildren machine pids).db = c.db := rfl

@[simp] theorem setChildren_procs (c : Cluster) (machine : MachineId) (pids : List Pid) :
    (c.setChildren machine pids).procs = c.procs := rfl

@[simp] theorem setChildren_daemon (c : Cluster) (machine : MachineId) (pids : List Pid) :
    (c.setChildren machine pids).daemon = c.daemon := rfl

@[simp] theorem setDb_db (c : Cluster) (db : Db) : (c.setDb db).db = db := rfl

@[simp] theorem setDb_procs (c : Cluster) (db : Db) : (c.setDb db).procs = c.procs := rfl

@[simp] theorem setDb_daemon (c : Cluster) (db : Db) : (c.setDb db).daemon = c.daemon := rfl

theorem setProc_procs (c : Cluster) (pid : Pid) (proc : Option Proc) :
    (c.setProc pid proc).procs = Function.update c.procs pid proc := rfl

theorem setDaemon_daemon (c : Cluster) (machine : MachineId) (d : Daemon) :
    (c.setDaemon machine d).daemon = Function.update c.daemon machine d := rfl

end Cluster

open Cluster in
/-- Everything a step can be, with what it found and what it left. -/
inductive Move (c : Cluster) : Event → Cluster → Prop where
  | call {pid : Pid} {ch : Choice} {proc : Proc} {o : Op} {k : Except Exn o.Res → Magus Unit}
      {r : Except Exn o.Res} {db : Db} (hproc : c.procs pid = some proc)
      (hprog : proc.prog = some (.call o k)) (ha : answer c.db o ch = some (r, db)) :
      Move c (.call pid ch) ((c.setDb db).setProc pid (some (proc.withProg (k r))))
  | fork {pid child : Pid} {l : Lock} {ph : Phase} {k : Except Exn Unit → Magus Unit}
      {ch : Option Pid} {masked : Bool}
      (hproc : c.procs pid = some (.worker l (.call (.fork ph) k) ch masked))
      (hfree : c.procs child = none) :
      Move c (.fork pid child)
        ((c.setProc pid (some (.worker l (k (.ok ())) (some child) masked))).setProc child
          (some (.makeChild pid l (makeChild l))))
  | waited {pid child : Pid} {l l' : Lock} {k : Except Exn Waited → Magus Unit} {masked : Bool}
      {st : WaitStatus}
      (hproc : c.procs pid = some (.worker l (.call .waitpid k) (some child) masked))
      (hchild : c.procs child = some (.makeChildExited pid l' st)) :
      Move c (.waited pid)
        ((c.setProc pid (some (.worker l (k (.ok (.done st))) none masked))).setProc child none)
  | waitedAgain {pid child : Pid} {l l' : Lock} {k : Except Exn WaitStatus → Magus Unit}
      {masked : Bool} {st : WaitStatus}
      (hproc : c.procs pid = some (.worker l (.call .waitpidAgain k) (some child) masked))
      (hchild : c.procs child = some (.makeChildExited pid l' st)) :
      Move c (.waited pid)
        ((c.setProc pid (some (.worker l (k (.ok st)) none masked))).setProc child none)
  | interruptWait {pid : Pid} {l : Lock} {k : Except Exn Waited → Magus Unit} {ch : Option Pid}
      {masked : Bool} (hproc : c.procs pid = some (.worker l (.call .waitpid k) ch masked)) :
      Move c (.interrupt pid .int)
        (c.setProc pid (some (.worker l (k (.ok .interrupted)) ch true)))
  | interruptWorker {pid : Pid} {sig : Interrupt} {l : Lock} {o : Op}
      {k : Except Exn o.Res → Magus Unit} {ch : Option Pid} {masked : Bool}
      (hproc : c.procs pid = some (.worker l (.call o k) ch masked))
      (hsig : sig = .int → o ≠ .waitpid ∧ masked = false) :
      Move c (.interrupt pid sig) (c.setProc pid (some (.worker l (k (.error sig.exn)) ch false)))
  | interruptChild {pid w : Pid} {sig : Interrupt} {l : Lock} {o : Op}
      {k : Except Exn o.Res → Magus Unit} (hproc : c.procs pid = some (.makeChild w l (.call o k))) :
      Move c (.interrupt pid sig) (c.setProc pid (some (.makeChild w l (k (.error sig.exn)))))
  | signalWorker {pid : Pid} {sig : Signal} {core : Bool} {l : Lock} {q : Magus Unit}
      {ch : Option Pid} {masked : Bool} (hproc : c.procs pid = some (.worker l q ch masked)) :
      Move c (.signal pid sig core) (c.setProc pid (some (.exited l (.signaled sig core))))
  | signalChild {pid w : Pid} {sig : Signal} {core : Bool} {l : Lock} {q : Magus Unit}
      (hproc : c.procs pid = some (.makeChild w l q)) :
      Move c (.signal pid sig core) (c.setProc pid (some (.makeChildExited w l (.signaled sig core))))
  | exitWorker {pid : Pid} {l : Lock} {q : Magus Unit} {ch : Option Pid} {masked : Bool}
      {st : WaitStatus} (hproc : c.procs pid = some (.worker l q ch masked)) (hst : exitStatus q = some st) :
      Move c (.exit pid) (c.setProc pid (some (.exited l st)))
  | exitChild {pid w : Pid} {l : Lock} {q : Magus Unit} {st : WaitStatus}
      (hproc : c.procs pid = some (.makeChild w l q)) (hst : exitStatus q = some st) :
      Move c (.exit pid) (c.setProc pid (some (.makeChildExited w l st)))
  | buried {pid pid' : Pid} {l : Lock} {code : ℕ} {u : Unit}
      (hproc : c.procs pid = some (.burial l code (.ret u)))
      (hd : c.daemon l.machine = .burying pid') :
      Move c (.exit pid) ((c.setProc pid none).setDaemon l.machine .main)
  | postponed {pid pid' : Pid} {l : Lock} {code : ℕ} {e : Exn}
      (hproc : c.procs pid = some (.burial l code (.raise e)))
      (hd : c.daemon l.machine = .burying pid') :
      Move c (.exit pid) ((c.setProc pid (some (.dead l code))).setDaemon l.machine .main)
  | killed {pid pid' : Pid} {l : Lock} {todo : List Lock} {u : Unit}
      (hproc : c.procs pid = some (.killer l (.ret u)))
      (hd : c.daemon l.machine = .killingPort pid' todo) :
      Move c (.exit pid) ((c.setProc pid none).setDaemon l.machine (.killing todo))
  | killAbandoned {pid pid' : Pid} {l : Lock} {todo : List Lock} {e : Exn}
      (hproc : c.procs pid = some (.killer l (.raise e)))
      (hd : c.daemon l.machine = .killingPort pid' todo) :
      Move c (.exit pid) ((c.setProc pid none).setDaemon l.machine .main)
  | exitReset {pid : Pid} {p : PortId} {q : Magus Unit} {st : WaitStatus}
      (hproc : c.procs pid = some (.resetPort p q)) (hst : exitStatus q = some st) :
      Move c (.exit pid) (c.setProc pid none)
  | exitIndex {pid : Pid} {p : PortId} {q : Magus Unit} {st : WaitStatus}
      (hproc : c.procs pid = some (.index p q)) (hst : exitStatus q = some st) :
      Move c (.exit pid) (c.setProc pid none)
  | select {machine : MachineId} {run : RunId} {configured : Option (List String)} {ph : Phase}
      {row : PortRow} (hd : c.daemon machine = .main)
      (hs : Selects c.db run (workerPhases configured) ph row) :
      Move c (.select machine run configured ph row) (c.setDaemon machine (.picked row ph))
  | insert {machine : MachineId} {row : PortRow} {ph : Phase}
      (hd : c.daemon machine = .picked row ph) (hfree : c.db.lock row.id ph = none) :
      Move c (.insert machine) ((c.setDb { c.db with
          lock := put c.db.lock row.id ph (some ⟨c.db.nextLock, machine⟩)
          nextLock := c.db.nextLock + 1 }).setDaemon machine
        (.hand ⟨c.db.nextLock, row, ph, machine⟩))
  | duplicate {machine : MachineId} {row : PortRow} {ph : Phase}
      (hd : c.daemon machine = .picked row ph) (hheld : c.db.lock row.id ph ≠ none) :
      Move c (.insert machine) (c.setDaemon machine .main)
  | giveUp {machine : MachineId} {row : PortRow} {ph : Phase}
      (hd : c.daemon machine = .picked row ph) :
      Move c (.giveUp machine) (c.setDaemon machine .main)
  | startChild {machine : MachineId} {pid : Pid} {l : Lock} (hd : c.daemon machine = .hand l)
      (hfree : c.procs pid = none) :
      Move c (.startChild machine pid) (((c.setProc pid (some (.worker l (run l) none false))).setChildren
        machine (pid :: c.children machine)).setDaemon machine .main)
  | forkFailed {machine : MachineId} {l : Lock} (hd : c.daemon machine = .hand l) :
      Move c (.forkFailed machine) (c.setDaemon machine .main)
  | reap {pid : Pid} {l : Lock} {st : WaitStatus} (hproc : c.procs pid = some (.exited l st)) :
      Move c (.reap pid) ((c.setProc pid (some (.dead l st.exitcode))).setChildren l.machine
        ((c.children l.machine).erase pid))
  | bury {pid : Pid} {l : Lock} {code : ℕ} (hproc : c.procs pid = some (.dead l code))
      (hd : c.daemon l.machine = .main) :
      Move c (.bury pid) ((c.setProc pid (some (.burial l code (processDeadChild l code)))).setDaemon
        l.machine (.burying pid))
  | killChildren {machine : MachineId} {kid : Option Pid} {stopped reaped : Cluster}
      (hstop : (stopped = c ∧ (c.daemon machine = .main ∨
          (∃ row ph, c.daemon machine = .picked row ph) ∨ ∃ l, c.daemon machine = .hand l)) ∨
        ∃ pid l code q, c.daemon machine = .burying pid ∧ c.procs pid = some (.burial l code q) ∧
          stopped = c.setProc pid (some (.dead l code)))
      (hreap : (kid = none ∧ reaped = stopped) ∨
        ∃ k l st, kid = some k ∧ c.procs k = some (.exited l st) ∧ l.machine = machine ∧
          reaped = stopped.setProc k none) :
      Move c (.killChildren machine kid)
        (reaped.setDaemon machine (.killing (machineLocks c.db machine)))
  | killNext {machine : MachineId} {pid : Pid} {l : Lock} {todo : List Lock}
      (hd : c.daemon machine = .killing (l :: todo)) (hfree : c.procs pid = none) :
      Move c (.killNext machine pid) ((c.setProc pid (some (.killer l (killLock l)))).setDaemon
        machine (.killingPort pid todo))
  | resetPort {pid : Pid} {p : PortId} (hfree : c.procs pid = none) :
      Move c (.resetPort pid p) (c.setProc pid (some (.resetPort p (reset p))))
  | index {pid : Pid} {machine : MachineId} {row : PortRow} {ignore : Option String}
      (hfree : c.procs pid = none) :
      Move c (.index pid machine row ignore)
        (c.setProc pid (some (.index row.id (indexPort machine row ignore))))
  | indexDepends {pid : Pid} {machine : MachineId} {p : PortId}
      {depends : List (Except String (PortId × String))} (hfree : c.procs pid = none) :
      Move c (.indexDepends pid machine p depends)
        (c.setProc pid (some (.index p (indexDepends machine p depends))))
  | tick : Move c .tick (c.setDb { c.db with now := c.db.now + 1 })

namespace Cluster
variable {c c' : Cluster}

theorem call_move {pid : Pid} {ch : Choice} (h : c.call pid ch = some c') :
    Move c (.call pid ch) c' := by
  simp only [call, Option.bind_eq_bind, Option.bind_eq_some_iff] at h
  obtain ⟨proc, hproc, q, hq, h⟩ := h
  cases q with
  | call o k =>
    obtain ⟨x, ha, h⟩ := Option.bind_eq_some_iff.1 h
    cases h
    exact .call hproc hq ha
  | _ => cases h

theorem fork_move {pid child : Pid} (h : c.fork pid child = some c') :
    Move c (.fork pid child) c' := by
  simp only [fork, Option.bind_eq_bind, Option.bind_eq_some_iff] at h
  obtain ⟨proc, hproc, h⟩ := h
  split at h
  · split at h
    · cases h
      exact .fork hproc ‹_›
    · cases h
  · cases h

theorem childStatus_eq {pid child : Pid} {st : WaitStatus}
    (h : c.childStatus pid child = some st) :
    ∃ l, c.procs child = some (.makeChildExited pid l st) := by
  unfold childStatus at h
  split at h
  · rename_i hproc
    split at h
    · rename_i hw
      cases h
      subst hw
      exact ⟨_, hproc⟩
    · cases h
  · cases h

theorem waited_move {pid : Pid} (h : c.waited pid = some c') : Move c (.waited pid) c' := by
  simp only [waited, Option.bind_eq_bind, Option.bind_eq_some_iff] at h
  obtain ⟨proc, hproc, h⟩ := h
  split at h
  · obtain ⟨st, hst, h⟩ := Option.bind_eq_some_iff.1 h
    obtain ⟨l', hchild⟩ := childStatus_eq hst
    cases h
    exact .waited hproc hchild
  · obtain ⟨st, hst, h⟩ := Option.bind_eq_some_iff.1 h
    obtain ⟨l', hchild⟩ := childStatus_eq hst
    cases h
    exact .waitedAgain hproc hchild
  · cases h

theorem interrupt_move {pid : Pid} {sig : Interrupt} (h : c.interrupt pid sig = some c') :
    Move c (.interrupt pid sig) c' := by
  simp only [interrupt, Option.bind_eq_bind, Option.bind_eq_some_iff] at h
  obtain ⟨proc, hproc, h⟩ := h
  split at h
  · split at h
    · cases h
      exact .interruptWait hproc
    · cases h
    · rename_i hwait hmask
      cases h
      refine .interruptWorker hproc ?_
      rintro rfl
      refine ⟨?_, by simpa using hmask⟩
      rintro rfl
      exact hwait _ rfl HEq.rfl rfl
  · cases h
    exact .interruptChild hproc
  · cases h

theorem signal_move {pid : Pid} {sig : Signal} {core : Bool}
    (h : c.signal pid (.signaled sig core) = some c') : Move c (.signal pid sig core) c' := by
  simp only [signal, Option.bind_eq_bind, Option.bind_eq_some_iff] at h
  obtain ⟨proc, hproc, h⟩ := h
  split at h
  · cases h
    exact .signalWorker hproc
  · cases h
    exact .signalChild hproc
  · cases h

theorem exit_move {pid : Pid} (h : c.exit pid = some c') : Move c (.exit pid) c' := by
  simp only [exit, Option.bind_eq_bind, Option.bind_eq_some_iff] at h
  obtain ⟨proc, hproc, h⟩ := h
  split at h
  · obtain ⟨st, hst, h⟩ := Option.bind_eq_some_iff.1 h
    cases h
    exact .exitWorker hproc hst
  · obtain ⟨st, hst, h⟩ := Option.bind_eq_some_iff.1 h
    cases h
    exact .exitChild hproc hst
  · split at h
    · cases h
      exact .buried hproc ‹_›
    · cases h
      exact .postponed hproc ‹_›
    · cases h
  · split at h
    · cases h
      exact .killed hproc ‹_›
    · cases h
      exact .killAbandoned hproc ‹_›
    · cases h
  · obtain ⟨st, hst, h⟩ := Option.bind_eq_some_iff.1 h
    cases h
    exact .exitReset hproc hst
  · obtain ⟨st, hst, h⟩ := Option.bind_eq_some_iff.1 h
    cases h
    exact .exitIndex hproc hst
  · cases h

theorem insert_move {machine : MachineId} (h : c.insert machine = some c') :
    Move c (.insert machine) c' := by
  unfold insert at h
  split at h
  · split at h
    · cases h
      exact .insert ‹_› ‹_›
    · cases h
      exact .duplicate ‹_› ‹_›
  · cases h

theorem killChildren_move {machine : MachineId} {kid : Option Pid}
    (h : c.killChildren machine kid = some c') : Move c (.killChildren machine kid) c' := by
  obtain ⟨stopped, hstop, h⟩ := Option.bind_eq_some_iff.1 h
  obtain ⟨reaped, hreap, rfl⟩ := Option.map_eq_some_iff.1 h
  refine @Move.killChildren c machine kid stopped reaped ?_ ?_
  · unfold leaveMain at hstop
    split at hstop
    · cases hstop
      exact .inl ⟨rfl, .inl ‹_›⟩
    · cases hstop
      exact .inl ⟨rfl, .inr (.inl ⟨_, _, ‹_›⟩)⟩
    · cases hstop
      exact .inl ⟨rfl, .inr (.inr ⟨_, ‹_›⟩)⟩
    · split at hstop
      · cases hstop
        exact .inr ⟨_, _, _, _, ‹_›, ‹_›, rfl⟩
      · cases hstop
    · cases hstop
  · cases kid with
    | none =>
      simp only [waitForKid] at hreap
      split at hreap
      · cases hreap
        exact .inl ⟨rfl, rfl⟩
      · cases hreap
    | some kid =>
      simp only [waitForKid] at hreap
      split at hreap
      · split at hreap
        · cases hreap
          exact .inr ⟨_, _, _, rfl, ‹_›, ‹_›, rfl⟩
        · cases hreap
      · cases hreap

theorem spawn_eq {pid : Pid} {proc : Proc} (h : c.spawn pid proc = some c') :
    c.procs pid = none ∧ c' = c.setProc pid (some proc) := by
  unfold spawn at h
  split at h
  · cases h
    exact ⟨‹_›, rfl⟩
  · cases h

theorem step_move {e : Event} (h : Step c e c') : Move c e c' := by
  cases e with
  | call pid ch => exact call_move h
  | fork pid child => exact fork_move h
  | waited pid => exact waited_move h
  | interrupt pid sig => exact interrupt_move h
  | signal pid sig core => exact signal_move h
  | exit pid => exact exit_move h
  | select machine run configured ph row =>
    simp only [Step, next, select] at h
    split at h
    · split at h
      · cases h
        exact .select ‹_› ‹_›
      · cases h
    · cases h
  | insert machine => exact insert_move h
  | giveUp machine =>
    simp only [Step, next, giveUp] at h
    split at h
    · cases h
      exact .giveUp ‹_›
    · cases h
  | startChild machine pid =>
    simp only [Step, next, startChild] at h
    split at h
    · split at h
      · cases h
        exact .startChild ‹_› ‹_›
      · cases h
    · cases h
  | forkFailed machine =>
    simp only [Step, next, forkFailed] at h
    split at h
    · cases h
      exact .forkFailed ‹_›
    · cases h
  | reap pid =>
    simp only [Step, next, reap, Option.bind_eq_bind, Option.bind_eq_some_iff] at h
    obtain ⟨proc, hproc, h⟩ := h
    split at h
    · split at h
      · cases h
        exact .reap hproc
      · cases h
    · cases h
  | bury pid =>
    simp only [Step, next, bury, Option.bind_eq_bind, Option.bind_eq_some_iff] at h
    obtain ⟨proc, hproc, h⟩ := h
    split at h
    · split at h
      · cases h
        exact .bury hproc ‹_›
      · cases h
    · cases h
  | killChildren machine kid => exact killChildren_move h
  | killNext machine pid =>
    simp only [Step, next, killNext] at h
    split at h
    · split at h
      · cases h
        exact .killNext ‹_› ‹_›
      · cases h
    · cases h
  | resetPort pid p =>
    obtain ⟨hfree, rfl⟩ := spawn_eq h
    exact .resetPort hfree
  | index pid machine row ignore =>
    obtain ⟨hfree, rfl⟩ := spawn_eq h
    exact .index hfree
  | indexDepends pid machine p depends =>
    obtain ⟨hfree, rfl⟩ := spawn_eq h
    exact .indexDepends hfree
  | tick =>
    cases h
    exact .tick

end Cluster

section Script

def samplePort : PortRow :=
  { id := 0, run := 1, name := "misc/a", version := "1", pkgname := "a" }

def freshDb : Db :=
  { Db.empty with
    tree := ⟨[samplePort], [], by simp, List.nodup_nil, by simp⟩
    phaseRow := fun _ _ => some (.fresh 0) }

def builtDb : Db :=
  { freshDb with
    status := fun _ => .pass
    phaseRow := fun _ ph => some { PhaseRow.fresh 0 with status := if ph = .build then .pass else .untested }
    pkgfiles := [samplePort.pkgfile] }

def calls (pid : Pid) (n : ℕ) : List Event := List.replicate n (.call pid .done)

def indexed : List Event := .index 10 1 samplePort none :: calls 10 9 ++ [.exit 10]

def taken (machine : MachineId) (row : PortRow) (ph : Phase) (pid : Pid) : List Event :=
  [.select machine row.run (some [ph.text]) ph row, .insert machine, .startChild machine pid]

def passed (pid child : Pid) : List Event :=
  [.fork pid child, .call child .done, .call child (.results { summary := .pass })] ++ calls child 3

def uploaded (pid child : Pid) : List Event :=
  [.exit child, .waited pid] ++ calls pid 2 ++ [.call pid (.command (.exited 0) "")] ++ calls pid 3

def released (pid : Pid) : List Event :=
  [.exit pid, .reap pid, .bury pid, .call pid .done, .exit pid]

end Script
end Mports.MagusCluster
