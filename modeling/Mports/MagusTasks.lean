import Mports.MagusChildren

set_option autoImplicit false

/-!
What every process and daemon is at, as a kind with a program, and how one step of
the cluster changes that: an owner either took no part, and the tables moved under
it, or it became something the step says. A discipline gives each kind a
rely-guarantee setting.
-/
namespace Mports.MagusTasks
open MagusTables MagusStatements MagusPort MagusReady MagusWorker MagusEffects MagusCluster
open MagusHolders MagusChildren StatementPrograms

inductive Kind where
  | worker (l : Lock)
  | corpse (l : Lock) (code : ℕ)
  | burial (l : Lock) (code : ℕ)
  | makeChild (l : Lock)
  | childCorpse (l : Lock) (st : WaitStatus)
  | killer (l : Lock)
  | resetPort (p : PortId)
  | index (p : PortId)
  | picked (row : PortRow) (ph : Phase)
  | hand (l : Lock)
  deriving DecidableEq

def Kind.lock : Kind → Option Lock
  | worker l | corpse l _ | burial l _ | makeChild l | hand l => some l
  | _ => none

def Kind.isWorker (p : Lock → Bool) : Kind → Bool
  | worker l => p l
  | _ => false

def procTask : Proc → Kind × Magus Unit
  | .worker l q _ _ => (.worker l, q)
  | .exited l st => (.corpse l st.exitcode, .ret ())
  | .dead l code => (.corpse l code, .ret ())
  | .burial l code q => (.burial l code, q)
  | .makeChild _ l q => (.makeChild l, q)
  | .makeChildExited _ l st => (.childCorpse l st, .ret ())
  | .killer l q => (.killer l, q)
  | .resetPort p q => (.resetPort p, q)
  | .index p q => (.index p, q)

def daemonTask : Daemon → Option (Kind × Magus Unit)
  | .picked row ph => some (.picked row ph, .ret ())
  | .hand l => some (.hand l, .ret ())
  | _ => none

def Starts : Event → Bool
  | .call .. | .select .. | .insert _ | .startChild .. => true
  | _ => false

def task (c : Cluster) : Owner → Option (Kind × Magus Unit) :=
  view (fun proc => proc.map procTask) daemonTask c

/-- The tables once `_get_lock` has inserted its row. -/
def withLock (db : Db) (row : PortRow) (ph : Phase) (machine : MachineId) : Db :=
  { db with
    lock := put db.lock row.id ph (some ⟨db.nextLock, machine⟩)
    nextLock := db.nextLock + 1 }

/-- How an operation came to be answered. -/
inductive Answered (c : Cluster) : Event → Db → Owner → Kind → (o : Op) → Except Exn o.Res → Prop
  | chosen {pid : Pid} {ch : Choice} {k : Kind} {o : Op} {r : Except Exn o.Res} {db : Db}
      (ha : answer c.db o ch = some (r, db)) : Answered c (.call pid ch) db (.inl pid) k o r
  | forked {pid child : Pid} {l : Lock} {ph : Phase} :
      Answered c (.fork pid child) c.db (.inl pid) (.worker l) (.fork ph) (.ok ())
  | waited {pid child : Pid} {l : Lock} {st : WaitStatus}
      (hchild : task c (.inl child) = some (.childCorpse l st, .ret ())) :
      Answered c (.waited pid) c.db (.inl pid) (.worker l) .waitpid (.ok (.done st))
  | waitedAgain {pid child : Pid} {l : Lock} {st : WaitStatus}
      (hchild : task c (.inl child) = some (.childCorpse l st, .ret ())) :
      Answered c (.waited pid) c.db (.inl pid) (.worker l) .waitpidAgain (.ok st)
  | handled {pid : Pid} {l : Lock} :
      Answered c (.interrupt pid .int) c.db (.inl pid) (.worker l) .waitpid (.ok .interrupted)
  | raised {pid : Pid} {sig : Interrupt} {k : Kind} {o : Op}
      (hk : (∃ l, k = .worker l ∧ (sig = .int → o ≠ .waitpid)) ∨ ∃ l, k = .makeChild l) :
      Answered c (.interrupt pid sig) c.db (.inl pid) k o (.error sig.exn)

def Effect (s : Db) (o : Op) (r : Except Exn o.Res) (u : Db) : Prop :=
  (∃ ch, answer s o ch = some (r, u)) ∨ (u = s ∧ ∀ x, (∃ st, o = .sql st) ∨ (∃ y, o = .ext y) → r ≠ .ok x)

theorem Answered.effect {c : Cluster} {e : Event} {db : Db} {x : Owner} {k : Kind} {o : Op}
    {r : Except Exn o.Res} (h : Answered c e db x k o r) : Effect c.db o r db := by
  cases h with
  | chosen ha => exact .inl ⟨_, ha⟩
  | _ => exact .inr ⟨rfl, by simp⟩

theorem locked_of_same {s u : Db} (h : u.lock = s.lock) {l : Lock} (hl : s.Locked l) : u.Locked l := by
  unfold Db.Locked at *
  rwa [h]

theorem Effect.locked {s u : Db} {o : Op} {r : Except Exn o.Res} (h : Effect s o r u)
    (hw : ∀ l, o ≠ .sql (.deleteLock l)) {l : Lock} (hl : s.Locked l) : u.Locked l := by
  rcases h with ⟨ch, ha⟩ | ⟨rfl, _⟩
  · exact locked_of_same (answer_lock ha hw) hl
  · exact hl

theorem Effect.locked_before {s u : Db} {o : Op} {r : Except Exn o.Res} (h : Effect s o r u) {l : Lock}
    (hl : u.Locked l) : s.Locked l := by
  rcases h with ⟨ch, ha⟩ | ⟨rfl, _⟩
  · obtain ⟨row, hrow, hid⟩ := Option.map_eq_some_iff.1 hl
    exact Option.map_eq_some_iff.2 ⟨row, answer_lock_sub ha hrow, hid⟩
  · exact hl

theorem Effect.error {s u : Db} {o : Op} {e : Exn} (h : Effect s o (.error e) u) : u = s := by
  rcases h with ⟨ch, ha⟩ | ⟨rfl, _⟩
  · cases o with
    | sql st =>
      rcases answer_sql ha with ⟨_, hr, _⟩ | ⟨_, _, _, _, hu⟩
      · cases hr
      · exact hu
    | ext x =>
      rcases answer_ext ha with ⟨_, hr, _⟩ | ⟨_, _, _, hu⟩
      · cases hr
      · exact hu
    | fork ph =>
      cases ch <;> cases ha
      rfl
    | waitpid | waitpidAgain => cases ch <;> cases ha
  · rfl

/-- How the tables moved in a step, and on whose account. -/
inductive Moved (c : Cluster) : Event → Option Owner → Db → Prop
  | still {e : Event} : Moved c e none c.db
  | tick : Moved c .tick none { c.db with now := c.db.now + 1 }
  | insert {machine : MachineId} {row : PortRow} {ph : Phase}
      (ht : task c (.inr machine) = some (.picked row ph, .ret ()))
      (hfree : c.db.lock row.id ph = none) :
      Moved c (.insert machine) (some (.inr machine)) (withLock c.db row ph machine)
  | call {pid : Pid} {k : Kind} {o : Op} {κ : Except Exn o.Res → Magus Unit} {ch : Choice}
      {r : Except Exn o.Res} {db : Db} (ht : task c (.inl pid) = some (k, .call o κ))
      (ha : answer c.db o ch = some (r, db)) : Moved c (.call pid ch) (some (.inl pid)) db

def Interferes (c : Cluster) (e : Event) (x : Owner) (db : Db) : Prop :=
  ∃ y, y ≠ some x ∧ Moved c e y db

inductive Becomes (c : Cluster) : Event → Db → Owner → Kind → Magus Unit → Prop
  | answered {e : Event} {db : Db} {x : Owner} {k : Kind} {o : Op} {κ : Except Exn o.Res → Magus Unit}
      {r : Except Exn o.Res} (ht : task c x = some (k, .call o κ)) (how : Answered c e db x k o r) :
      Becomes c e db x k (κ r)
  | forked {pid child : Pid} {l : Lock} {ph : Phase} {κ : Except Exn Unit → Magus Unit}
      (ht : task c (.inl pid) = some (.worker l, .call (.fork ph) κ)) :
      Becomes c (.fork pid child) c.db (.inl child) (.makeChild l) (makeChild l)
  | workerSignaled {pid : Pid} {sig : Signal} {core : Bool} {l : Lock} {q : Magus Unit}
      (ht : task c (.inl pid) = some (.worker l, q)) :
      Becomes c (.signal pid sig core) c.db (.inl pid) (.corpse l 0) (.ret ())
  | childSignaled {pid : Pid} {sig : Signal} {core : Bool} {l : Lock} {q : Magus Unit}
      (ht : task c (.inl pid) = some (.makeChild l, q)) :
      Becomes c (.signal pid sig core) c.db (.inl pid) (.childCorpse l (.signaled sig core)) (.ret ())
  | workerEnded {pid : Pid} {l : Lock} {q : Magus Unit} {st : WaitStatus}
      (ht : task c (.inl pid) = some (.worker l, q)) (hst : Cluster.exitStatus q = some st) :
      Becomes c (.exit pid) c.db (.inl pid) (.corpse l st.exitcode) (.ret ())
  | childEnded {pid : Pid} {l : Lock} {q : Magus Unit} {st : WaitStatus}
      (ht : task c (.inl pid) = some (.makeChild l, q)) (hst : Cluster.exitStatus q = some st) :
      Becomes c (.exit pid) c.db (.inl pid) (.childCorpse l st) (.ret ())
  | postponed {pid : Pid} {l : Lock} {code : ℕ} {e : Exn}
      (ht : task c (.inl pid) = some (.burial l code, .raise e)) :
      Becomes c (.exit pid) c.db (.inl pid) (.corpse l code) (.ret ())
  | abandoned {machine : MachineId} {kid : Option Pid} {pid : Pid} {l : Lock} {code : ℕ}
      {q : Magus Unit} (ht : task c (.inl pid) = some (.burial l code, q)) :
      Becomes c (.killChildren machine kid) c.db (.inl pid) (.corpse l code) (.ret ())
  | started {machine : MachineId} {pid : Pid} {l : Lock}
      (ht : task c (.inr machine) = some (.hand l, .ret ())) :
      Becomes c (.startChild machine pid) c.db (.inl pid) (.worker l) (run l)
  | buried {pid : Pid} {l : Lock} {code : ℕ}
      (ht : task c (.inl pid) = some (.corpse l code, .ret ())) :
      Becomes c (.bury pid) c.db (.inl pid) (.burial l code) (processDeadChild l code)
  | killing {machine : MachineId} {pid : Pid} {l : Lock} {todo : List Lock}
      (hd : c.daemon machine = .killing (l :: todo)) :
      Becomes c (.killNext machine pid) c.db (.inl pid) (.killer l) (killLock l)
  | resetting {pid : Pid} {p : PortId} :
      Becomes c (.resetPort pid p) c.db (.inl pid) (.resetPort p) (reset p)
  | indexing {pid : Pid} {machine : MachineId} {row : PortRow} {ignore : Option String} :
      Becomes c (.index pid machine row ignore) c.db (.inl pid) (.index row.id)
        (indexPort machine row ignore)
  | indexingDepends {pid : Pid} {machine : MachineId} {p : PortId}
      {depends : List (Except String (PortId × String))} :
      Becomes c (.indexDepends pid machine p depends) c.db (.inl pid) (.index p)
        (indexDepends machine p depends)
  | selected {machine : MachineId} {run : RunId} {configured : Option (List String)} {ph : Phase}
      {row : PortRow} (hs : Selects c.db run (workerPhases configured) ph row) :
      Becomes c (.select machine run configured ph row) c.db (.inr machine) (.picked row ph) (.ret ())
  | inserted {machine : MachineId} {row : PortRow} {ph : Phase}
      (ht : task c (.inr machine) = some (.picked row ph, .ret ()))
      (hfree : c.db.lock row.id ph = none) :
      Becomes c (.insert machine) (withLock c.db row ph machine) (.inr machine)
        (.hand ⟨c.db.nextLock, row, ph, machine⟩) (.ret ())

theorem task_proc {c : Cluster} {pid : Pid} {proc : Proc} (h : c.procs pid = some proc) :
    task c (.inl pid) = some (procTask proc) := by
  simp [task, view, h]

theorem task_daemon {c : Cluster} {machine : MachineId} {d : Daemon} (h : c.daemon machine = d) :
    task c (.inr machine) = daemonTask d := by
  simp [task, view, h]

theorem daemon_of_task {c : Cluster} {x : Owner} {k : Kind} {q : Magus Unit} (h : task c x = some (k, q))
    (hproc : ∀ proc, (procTask proc).1 ≠ k) :
    ∃ machine, x = .inr machine ∧ daemonTask (c.daemon machine) = some (k, q) := by
  rcases x with pid | machine
  · cases hp : c.procs pid with
    | none => simp [task, view, hp] at h
    | some proc =>
      rw [task_proc hp] at h
      exact absurd (congrArg Prod.fst (Option.some.inj h)) (hproc proc)
  · exact ⟨machine, rfl, task_daemon rfl ▸ h⟩

theorem daemon_picked {c : Cluster} {x : Owner} {row : PortRow} {ph : Phase} {q : Magus Unit}
    (h : task c x = some (.picked row ph, q)) :
    ∃ machine, x = .inr machine ∧ c.daemon machine = .picked row ph := by
  obtain ⟨machine, rfl, hd⟩ := daemon_of_task h fun proc => by cases proc <;> nofun
  refine ⟨machine, rfl, ?_⟩
  cases hm : c.daemon machine <;> rw [hm] at hd <;> cases hd
  rfl

theorem daemon_hand {c : Cluster} {x : Owner} {l : Lock} {q : Magus Unit}
    (h : task c x = some (.hand l, q)) : ∃ machine, x = .inr machine ∧ c.daemon machine = .hand l := by
  obtain ⟨machine, rfl, hd⟩ := daemon_of_task h fun proc => by cases proc <;> nofun
  refine ⟨machine, rfl, ?_⟩
  cases hm : c.daemon machine <;> rw [hm] at hd <;> cases hd
  rfl

theorem withProg_task {proc : Proc} {q w : Magus Unit} (h : proc.prog = some q) :
    (procTask proc).2 = q ∧ procTask (proc.withProg w) = ((procTask proc).1, w) := by
  cases proc <;> cases h <;> exact ⟨rfl, rfl⟩

section Moves
variable {c c' : Cluster} {e : Event}

/-- What is to be shown of one owner after the step. -/
def Accounted (c : Cluster) (e : Event) (db : Db) (x : Owner) (t : Kind × Magus Unit) : Prop :=
  (task c x = some t ∧ Interferes c e x db) ∨ Becomes c e db x t.1 t.2

def Accounts (c : Cluster) (e : Event) (db : Db) (c' : Cluster) : Prop :=
  ∀ x t, task c' x = some t → Accounted c e db x t

namespace Accounts
variable {db : Db} {pid : Pid} {machine : MachineId} {proc : Proc} {d : Daemon}

theorem still : Accounts c e c.db c := fun _ _ h => .inl ⟨h, none, by simp, .still⟩

theorem setProc {new : Option Proc} (hold : ∀ x ≠ .inl pid, ∀ t, task c' x = some t → Accounted c e db x t)
    (hnew : ∀ proc, new = some proc → Accounted c e db (.inl pid) (procTask proc)) :
    Accounts c e db (c'.setProc pid new) := by
  intro x t ht
  rw [task, view_setProc, Function.update_apply] at ht
  split at ht
  · rename_i hx
    subst hx
    cases new with
    | none => cases ht
    | some proc =>
      cases ht
      exact hnew proc rfl
  · exact hold x ‹_› t ht

theorem setDaemon (hold : ∀ x ≠ .inr machine, ∀ t, task c' x = some t → Accounted c e db x t)
    (hnew : ∀ t, daemonTask d = some t → Accounted c e db (.inr machine) t) :
    Accounts c e db (c'.setDaemon machine d) := by
  intro x t ht
  rw [task, view_setDaemon, Function.update_apply] at ht
  split at ht
  · rename_i hx
    subst hx
    exact hnew t ht
  · exact hold x ‹_› t ht

theorem change (hold : Accounts c e db c') (h : Becomes c e db (.inl pid) (procTask proc).1 (procTask proc).2) :
    Accounts c e db (c'.setProc pid (some proc)) :=
  setProc (fun x _ => hold x) fun _ hproc => Option.some.inj hproc ▸ .inr h

theorem reap (hold : Accounts c e db c') : Accounts c e db (c'.setProc pid none) :=
  setProc (fun x _ => hold x) nofun

theorem idle (hold : Accounts c e db c') (hd : daemonTask d = none) : Accounts c e db (c'.setDaemon machine d) :=
  setDaemon (fun x _ => hold x) fun _ h => absurd (hd.symm.trans h) nofun

theorem call {ch : Choice} {o : Op} {κ : Except Exn o.Res → Magus Unit} {r : Except Exn o.Res}
    (hproc : c.procs pid = some proc) (hprog : proc.prog = some (.call o κ)) (ha : answer c.db o ch = some (r, db)) :
    Accounts c (.call pid ch) db ((c.setDb db).setProc pid (some (proc.withProg (κ r)))) := by
  obtain ⟨hq, hnew⟩ := withProg_task (w := κ r) hprog
  have ht : task c (.inl pid) = some ((procTask proc).1, .call o κ) := by
    rw [task_proc hproc, ← hq]
  refine setProc (fun x hx t h => .inl ⟨by simpa [task] using h, _, by simpa using Ne.symm hx, .call ht ha⟩) ?_
  rintro _ ⟨rfl⟩
  rw [hnew]
  exact .inr (.answered ht (.chosen ha))

theorem insert {row : PortRow} {ph : Phase} (hd : c.daemon machine = .picked row ph)
    (hfree : c.db.lock row.id ph = none) : Accounts c (.insert machine) (withLock c.db row ph machine)
      ((c.setDb (withLock c.db row ph machine)).setDaemon machine (.hand ⟨c.db.nextLock, row, ph, machine⟩)) := by
  refine setDaemon (fun x hx t h => .inl ⟨by simpa [task] using h, _, by simpa using Ne.symm hx,
    .insert (task_daemon hd) hfree⟩) ?_
  rintro _ ⟨rfl⟩
  exact .inr (.inserted (task_daemon hd) hfree)

theorem setChildren {pids : List Pid} (hold : Accounts c e db c') : Accounts c e db (c'.setChildren machine pids) :=
  fun x t h => hold x t (by simpa [task] using h)

/-- The burial that a daemon is stopped at is given up; at most one child is reaped. -/
theorem killChildren {kid : Option Pid} {stopped reaped : Cluster}
    (hstop : stopped = c ∨ ∃ pid l code q, c.procs pid = some (.burial l code q) ∧
      stopped = c.setProc pid (some (.dead l code)))
    (hreap : reaped = stopped ∨ ∃ k, reaped = stopped.setProc k none) :
    reaped.db = c.db ∧ Accounts c (.killChildren machine kid) c.db reaped := by
  have hstopped : stopped.db = c.db ∧ Accounts c (.killChildren machine kid) c.db stopped := by
    rcases hstop with rfl | ⟨pid, l, code, q, hproc, rfl⟩
    · exact ⟨rfl, still⟩
    · exact ⟨rfl, still.change (.abandoned (task_proc hproc))⟩
  rcases hreap with rfl | ⟨k, rfl⟩
  · exact hstopped
  · exact ⟨hstopped.1, hstopped.2.reap⟩

end Accounts

theorem child_lock (links : Links c) {pid child : Pid} {l l' : Lock} {q : Magus Unit} {masked : Bool} {st : WaitStatus}
    (hproc : c.procs pid = some (.worker l q (some child) masked))
    (hchild : c.procs child = some (.makeChildExited pid l' st)) : l' = l := by
  rcases links _ _ _ _ _ hproc with ⟨_, hl⟩ | ⟨_, hl⟩ <;> rw [hchild] at hl <;> cases hl
  rfl

theorem accounted (links : Links c) (hm : Move c e c') :
    ∀ x t, task c' x = some t → Accounted c e c'.db x t := by
  change Accounts c e c'.db c'
  cases hm with
  | call hproc hprog ha => exact .call hproc hprog ha
  | fork hproc hfree =>
    exact (Accounts.still.change (.answered (task_proc hproc) .forked)).change (.forked (task_proc hproc))
  | waited hproc hchild =>
    obtain rfl := child_lock links hproc hchild
    exact (Accounts.still.change (.answered (task_proc hproc) (.waited (task_proc hchild)))).reap
  | waitedAgain hproc hchild =>
    obtain rfl := child_lock links hproc hchild
    exact (Accounts.still.change (.answered (task_proc hproc) (.waitedAgain (task_proc hchild)))).reap
  | interruptWait hproc => exact Accounts.still.change (.answered (task_proc hproc) .handled)
  | interruptWorker hproc hsig =>
    exact Accounts.still.change (.answered (task_proc hproc) (.raised (.inl ⟨_, rfl, fun h => (hsig h).1⟩)))
  | interruptChild hproc =>
    exact Accounts.still.change (.answered (task_proc hproc) (.raised (.inr ⟨_, rfl⟩)))
  | signalWorker hproc =>
    refine Accounts.still.change ?_
    simp only [procTask, WaitStatus.exitcode_signaled]
    exact .workerSignaled (task_proc hproc)
  | signalChild hproc => exact Accounts.still.change (.childSignaled (task_proc hproc))
  | exitWorker hproc hst => exact Accounts.still.change (.workerEnded (task_proc hproc) hst)
  | exitChild hproc hst => exact Accounts.still.change (.childEnded (task_proc hproc) hst)
  | buried hproc hd | killed hproc hd | killAbandoned hproc hd => exact Accounts.still.reap.idle rfl
  | postponed hproc hd => exact (Accounts.still.change (.postponed (task_proc hproc))).idle rfl
  | exitReset hproc hst | exitIndex hproc hst => exact Accounts.still.reap
  | select hd hs =>
    refine Accounts.setDaemon (fun x _ => Accounts.still x) ?_
    rintro _ ⟨rfl⟩
    exact .inr (.selected hs)
  | insert hd hfree => exact .insert hd hfree
  | duplicate hd hheld | giveUp hd | forkFailed hd => exact Accounts.still.idle rfl
  | startChild hd hfree => exact (Accounts.still.change (.started (task_daemon hd))).setChildren.idle rfl
  | reap hproc =>
    refine (Accounts.setProc (fun x _ => Accounts.still x) ?_).setChildren
    rintro _ ⟨rfl⟩
    have hcorpse := task_proc hproc
    exact .inl ⟨hcorpse, none, by simp, .still⟩
  | bury hproc hd => exact (Accounts.still.change (.buried (task_proc hproc))).idle rfl
  | killChildren hstop hreap =>
    obtain ⟨hdb, hreaped⟩ := Accounts.killChildren
      (hstop.imp And.left fun ⟨pid, l, code, q, _, hproc, h⟩ => ⟨pid, l, code, q, hproc, h⟩)
      (hreap.imp And.right fun ⟨k, _, _, _, _, _, h⟩ => ⟨k, h⟩)
    rw [Cluster.setDaemon_db, hdb]
    exact hreaped.idle rfl
  | killNext hd hfree => exact (Accounts.still.change (.killing hd)).idle rfl
  | resetPort hfree => exact Accounts.still.change .resetting
  | index hfree => exact Accounts.still.change .indexing
  | indexDepends hfree => exact Accounts.still.change .indexingDepends
  | tick => exact fun x t h => .inl ⟨by simpa [task] using h, none, by simp, .tick⟩

theorem moved (hm : Move c e c') : ∃ y, Moved c e y c'.db := by
  cases hm with
  | @call pid ch proc o κ r db hproc hprog ha =>
    refine ⟨_, .call (k := (procTask proc).1) (κ := κ) ?_ ha⟩
    rw [task_proc hproc, ← (withProg_task (w := κ r) hprog).1]
  | insert hd hfree => exact ⟨_, .insert (task_daemon hd) hfree⟩
  | tick => exact ⟨_, .tick⟩
  | killChildren hstop hreap =>
    refine ⟨none, ?_⟩
    rcases hstop with ⟨rfl, _⟩ | ⟨pid, l, code, q, _, hproc, rfl⟩ <;>
      rcases hreap with ⟨_, rfl⟩ | ⟨k, l, st, _, _, _, rfl⟩ <;> exact .still
  | _ => exact ⟨none, .still⟩

/-- A lock comes into a task only from a task that had it, or from its INSERT. -/
theorem lock_before (links : Links c) (hm : Move c e c') {x : Owner} {k : Kind} {q : Magus Unit}
    {l : Lock} (ht : task c' x = some (k, q)) (hl : k.lock = some l) :
    (∃ y k₀ q₀, task c y = some (k₀, q₀) ∧ k₀.lock = some l) ∨
      ∃ machine row ph, e = .insert machine ∧ c.daemon machine = .picked row ph ∧
        c.db.lock row.id ph = none ∧ l = ⟨c.db.nextLock, row, ph, machine⟩ := by
  rcases accounted links hm x _ ht with ⟨hold, _⟩ | hb
  · exact .inl ⟨x, k, q, hold, hl⟩
  generalize c'.db = db at hb
  cases hb with
  | answered hold how => exact .inl ⟨_, _, _, hold, hl⟩
  | forked hold | workerSignaled hold | workerEnded hold | postponed hold | abandoned hold
  | started hold | buried hold => exact .inl ⟨_, _, _, hold, hl⟩
  | @inserted machine row ph hold hfree =>
    obtain ⟨_, hx, hd⟩ := daemon_picked hold
    cases hx
    cases hl
    exact .inr ⟨machine, row, ph, rfl, hd, hfree, rfl⟩
  | _ => cases hl

end Moves

/-- What each kind of task relies on, needs and leaves behind. -/
structure Discipline where
  setting : Kind → Setting magus Db
  post : Kind → Exit magus Unit → Db → Prop

namespace Discipline
variable {D : Discipline} {c c' : Cluster} {e : Event}

def Holds (D : Discipline) (k : Kind) (q : Magus Unit) (db : Db) : Prop :=
  Outline (D.setting k) (D.post k) q db

def Sound (D : Discipline) (c : Cluster) : Prop :=
  ∀ x k q, task c x = some (k, q) → D.Holds k q c.db

theorem Sound.start (db : Db) : D.Sound (Cluster.start db) := by
  intro x k q h
  cases x <;> cases h

theorem Sound.step (s : D.Sound c) (links : Links c) (hm : Move c e c')
    (bystander : ∀ db x k q, task c x = some (k, q) → Interferes c e x db →
      (D.setting k).rely q.pending c.db db)
    (becomes : ∀ db x k q, Becomes c e db x k q → D.Holds k q db) : D.Sound c' := by
  intro x k q h
  rcases accounted links hm x (k, q) h with ⟨ht, hi⟩ | hb
  · exact (s x k q ht).rely (bystander _ x k q ht hi)
  · exact becomes _ x k q hb

end Discipline
end Mports.MagusTasks
