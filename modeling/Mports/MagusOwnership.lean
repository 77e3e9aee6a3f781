import Mports.MagusConduct

set_option autoImplicit false

namespace Mports.MagusOwnership
open MagusTables MagusStatements MagusReady MagusWorker MagusFootprint MagusEffects MagusCluster
open MagusHolders MagusChildren MagusTasks MagusConduct StatementPrograms

section Pairs
variable {c : Cluster} {x y : Owner} {k k' : Kind} {q q' : Magus Unit} {l l' : Lock}

theorem holder_of_task (ht : task c x = some (k, q)) (hl : k.lock = some l)
    (hk : ∀ l', k ≠ .makeChild l') : holder c x = some l := by
  rcases x with pid | machine
  · cases hproc : c.procs pid with
    | none => simp [task, view, hproc] at ht
    | some proc =>
      rw [task_proc hproc, Option.some.injEq] at ht
      cases proc with
      | makeChild w l₁ q₁ =>
        cases ht
        exact absurd rfl (hk l₁)
      | worker | exited | dead | burial =>
        cases ht
        cases hl
        simp [holder, view, hproc, Proc.lock]
      | _ =>
        cases ht
        cases hl
  · cases hd : c.daemon machine with
    | hand l₁ =>
      rw [task_daemon hd] at ht
      cases ht
      cases hl
      simp [holder, view, hd, Daemon.lock]
    | picked row ph =>
      rw [task_daemon hd] at ht
      cases ht
      cases hl
    | _ =>
      rw [task_daemon hd] at ht
      cases ht

theorem child_of_task (ht : task c x = some (.makeChild l, q)) :
    ∃ pid w, x = .inl pid ∧ c.procs pid = some (.makeChild w l q) := by
  rcases x with pid | machine
  · cases hproc : c.procs pid with
    | none => simp [task, view, hproc] at ht
    | some proc =>
      rw [task_proc hproc, Option.some.injEq] at ht
      cases proc <;> cases ht
      exact ⟨pid, _, rfl, hproc⟩
  · cases hd : c.daemon machine <;> rw [task_daemon hd] at ht <;> cases ht

theorem killer_mentions {pid : Pid} (ht : task c (.inl pid) = some (.killer l, q)) : Mentions c l := by
  refine .inr ⟨.inl pid, ?_⟩
  cases hp : c.procs pid with
  | none => simp [task, view, hp] at ht
  | some proc =>
    rw [task_proc hp] at ht
    cases proc <;> cases ht
    simp [kills, view, hp, Proc.kills]

theorem root (waiting : Waiting c) (ht : task c x = some (k, q)) (hl : k.lock = some l) :
    (holder c x = some l ∧ ∀ l', k ≠ .makeChild l') ∨ ∃ pid w q₁ q₂ m, x = .inl pid ∧
      k = .makeChild l ∧ c.procs pid = some (.makeChild w l q₁) ∧
      c.procs w = some (.worker l q₂ (some pid) m) ∧ Waits q₂ := by
  by_cases hk : ∃ l', k = .makeChild l'
  · obtain ⟨l', rfl⟩ := hk
    cases hl
    obtain ⟨pid, w, rfl, hproc⟩ := child_of_task ht
    obtain ⟨q₂, m, hw, hwait⟩ := waiting _ _ _ _ hproc
    exact .inr ⟨pid, w, q, q₂, m, rfl, rfl, hproc, hw, hwait⟩
  · have hne : ∀ l', k ≠ .makeChild l' := fun l' he => hk ⟨l', he⟩
    exact .inl ⟨holder_of_task ht hl hne, hne⟩

theorem paired (ids : LockIds c) (waiting : Waiting c) (hx : task c x = some (k, q))
    (hy : task c y = some (k', q')) (hne : x ≠ y) (hl : k.lock = some l) (hl' : k'.lock = some l')
    (hid : l.id = l'.id) :
    (k = .makeChild l ∧ k' = .worker l' ∧ Waits q') ∨
      (k = .worker l ∧ Waits q ∧ k' = .makeChild l') := by
  have worker : ∀ {w : Pid} {l₁ : Lock} {q₁ : Magus Unit} {ch : Option Pid} {m : Bool},
      c.procs w = some (.worker l₁ q₁ ch m) → holder c (.inl w) = some l₁ :=
    fun h => LockIds.holder_of_proc h rfl
  rcases root waiting hx hl with ⟨hx₁, _⟩ | ⟨pid, w, q₁, q₂, m, rfl, rfl, hpid, hw, hwait⟩ <;>
    rcases root waiting hy hl' with ⟨hy₁, _⟩ | ⟨pid', w', q₁', q₂', m', rfl, rfl, hpid', hw', hwait'⟩
  · exact absurd (ids.unique x y l l' hx₁ hy₁ hid) hne
  · obtain rfl := ids.unique _ _ _ _ hx₁ (worker hw') hid
    rw [task_proc hw'] at hx
    cases hx
    cases hl
    exact .inr ⟨rfl, hwait', rfl⟩
  · obtain rfl := ids.unique _ _ _ _ hy₁ (worker hw) hid.symm
    rw [task_proc hw] at hy
    cases hy
    cases hl'
    exact .inl ⟨rfl, rfl, hwait⟩
  · have hww := ids.unique _ _ _ _ (worker hw) (worker hw') hid
    cases hww
    rw [hw] at hw'
    cases hw'
    exact absurd rfl hne

theorem named (ids : LockIds c) (waiting : Waiting c) (ht : task c x = some (k, q))
    (hl : k.lock = some l) : Names c.db l := by
  rcases root waiting ht hl with ⟨h, _⟩ | ⟨_, w, _, _, _, _, _, _, hw, _⟩
  · exact ids.named l (.inl ⟨x, h⟩)
  · exact ids.named l (.inl ⟨.inl w, LockIds.holder_of_proc hw rfl⟩)

end Pairs

def Live (c : Cluster) (l : Lock) : Prop :=
  ∃ pid k q, task c (.inl pid) = some (k, q) ∧ (k = .worker l ∨ k = .makeChild l)

inductive Shifts (c : Cluster) : Event → MachineId → Daemon → Prop
  | same {e : Event} {machine : MachineId} : Shifts c e machine (c.daemon machine)
  | idle {e : Event} {machine : MachineId} {d : Daemon} (hkills : d.kills = [])
      (hd : ∀ todo, d ≠ .killing todo ∧ ∀ pid, d ≠ .killingPort pid todo)
      (hold : (∀ pid todo, c.daemon machine ≠ .killingPort pid todo) ∨
        ∃ pid l q, e = .exit pid ∧ task c (.inl pid) = some (.killer l, q) ∧ q.Ended ∧
          l.machine = machine) : Shifts c e machine d
  | killing {machine : MachineId} {kid : Option Pid}
      (hold : ∀ pid todo, c.daemon machine ≠ .killingPort pid todo) :
      Shifts c (.killChildren machine kid) machine (.killing (machineLocks c.db machine))
  | killingPort {machine : MachineId} {pid : Pid} {l : Lock} {todo : List Lock}
      (hd : c.daemon machine = .killing (l :: todo)) :
      Shifts c (.killNext machine pid) machine (.killingPort pid todo)
  | killed {pid pid' : Pid} {l : Lock} {q : Magus Unit} {todo : List Lock}
      (ht : task c (.inl pid) = some (.killer l, q)) (hq : q.Ended)
      (hd : c.daemon l.machine = .killingPort pid' todo) :
      Shifts c (.exit pid) l.machine (.killing todo)

section Killing
variable {c c' : Cluster} {e : Event}

theorem shifts_setDaemon {a : Cluster} {machine : MachineId} {d : Daemon} (ha : a.daemon = c.daemon)
    (hnew : Shifts c e machine d) : ∀ m, Shifts c e m ((a.setDaemon machine d).daemon m) := by
  intro m
  rw [Cluster.setDaemon_daemon, Function.update_apply]
  split
  · rename_i hm
    exact hm ▸ hnew
  · exact ha ▸ .same

theorem shifts (hm : Move c e c') : ∀ m, Shifts c e m (c'.daemon m) := by
  have still : ∀ {a : Cluster}, a.daemon = c.daemon → ∀ m, Shifts c e m (a.daemon m) :=
    fun h m => h ▸ .same
  have idle : ∀ {machine : MachineId} {d : Daemon}, d.kills = [] →
      (∀ todo, d ≠ .killing todo ∧ ∀ pid, d ≠ .killingPort pid todo) →
      (∀ pid todo, c.daemon machine ≠ .killingPort pid todo) → Shifts c e machine d :=
    fun h₁ h₂ h₃ => .idle h₁ h₂ (.inl h₃)
  cases hm with
  | buried hproc hd | postponed hproc hd | bury hproc hd =>
    exact shifts_setDaemon rfl (idle rfl (by simp) (by simp [hd]))
  | killed hproc hd => exact shifts_setDaemon rfl (.killed (task_proc hproc) trivial hd)
  | @killAbandoned pid pid' l todo e' hproc hd =>
    exact shifts_setDaemon rfl (.idle rfl (by simp) (.inr ⟨pid, l, _, rfl, task_proc hproc, trivial, rfl⟩))
  | select hd hs | duplicate hd hheld | giveUp hd | forkFailed hd =>
    exact shifts_setDaemon rfl (idle rfl (by simp) (by simp [hd]))
  | insert hd hfree => exact shifts_setDaemon rfl (idle rfl (by simp) (by simp [hd]))
  | startChild hd hfree => exact shifts_setDaemon rfl (idle rfl (by simp) (by simp [hd]))
  | killNext hd hfree => exact shifts_setDaemon rfl (.killingPort hd)
  | @killChildren machine kid stopped reaped hstop hreap =>
    refine shifts_setDaemon ?_ (.killing ?_)
    · rcases hstop with ⟨rfl, _⟩ | ⟨pid, l, code, q, _, hproc, rfl⟩ <;>
        rcases hreap with ⟨_, rfl⟩ | ⟨k, l, st, _, _, _, rfl⟩ <;> rfl
    · rcases hstop with ⟨_, hd | ⟨_, _, hd⟩ | ⟨_, hd⟩⟩ | ⟨_, _, _, _, hd, _⟩ <;> simp [hd]
  | _ => exact still rfl

theorem live_before (links : Links c) (hm : Move c e c') {l : Lock} (h : Live c' l) :
    Live c l ∨ ∃ machine pid, e = .startChild machine pid ∧ c.daemon machine = .hand l := by
  obtain ⟨pid, k, q, ht, hk⟩ := h
  rcases accounted links hm _ _ ht with ⟨ht, _⟩ | hb
  · exact .inl ⟨pid, k, q, ht, hk⟩
  generalize c'.db = db at hb
  cases hb with
  | answered hold how => exact .inl ⟨pid, k, _, hold, hk⟩
  | forked hold =>
    rcases hk with hk | hk <;> cases hk
    exact .inl ⟨_, _, _, hold, .inl rfl⟩
  | @started machine _ l' hold =>
    rcases hk with hk | hk <;> cases hk
    obtain ⟨_, hx, hd⟩ := daemon_hand hold
    cases hx
    exact .inr ⟨machine, _, rfl, hd⟩
  | _ => rcases hk with hk | hk <;> cases hk

end Killing

theorem killer_leaves {c c' : Cluster} {pid : Pid} {l l' : Lock} {q q' : Magus Unit}
    (hm : Move c (.exit pid) c') (ht : task c (.inl pid) = some (.killer l, q))
    (ht' : task c' (.inl pid) = some (.killer l', q')) : False := by
  have killer : ∀ {proc : Proc}, c.procs pid = some proc → (procTask proc).1 = .killer l := by
    intro proc hproc
    rw [task_proc hproc] at ht
    exact (congrArg Prod.fst (Option.some.inj ht))
  cases hm with
  | killed hproc hd | killAbandoned hproc hd =>
    simp [task, view, Cluster.setProc, Cluster.setDaemon] at ht'
  | exitWorker hproc | exitChild hproc | buried hproc | postponed hproc | exitReset hproc
  | exitIndex hproc => cases killer hproc

def Kills (d : Daemon) : Prop :=
  (∃ todo, d = .killing todo) ∨ ∃ pid todo, d = .killingPort pid todo

/-- A daemon kills locks of its own machine, one at a time. -/
structure Methodical (c : Cluster) : Prop where
  mine : ∀ machine l, l ∈ (c.daemon machine).kills → l.machine = machine
  busy : ∀ pid l q, task c (.inl pid) = some (.killer l, q) →
    ∃ todo, c.daemon l.machine = .killingPort pid todo

/-- A daemon that kills has no live worker or make child. -/
structure Alone (c : Cluster) : Prop extends Methodical c where
  gone : ∀ machine l, Live c l → Kills (c.daemon machine) → l.machine ≠ machine

/-- `kill_children` starts only when the machine has no live worker or make child left. -/
def Calm (c : Cluster) : Event → Prop
  | .killChildren machine _ => ∀ l, Live c l → l.machine ≠ machine
  | _ => True

namespace Methodical
variable {c c' : Cluster} {e : Event}

theorem start (db : Db) : Methodical (Cluster.start db) where
  mine := fun _ _ h => by cases h
  busy := fun _ _ _ h => by cases h

theorem step (h : Methodical c) (links : Links c) (hm : Move c e c') : Methodical c' where
  mine := by
    intro machine l hl
    have hs := shifts hm machine
    generalize c'.daemon machine = d at hs hl
    cases hs with
    | same => exact h.mine machine l hl
    | idle hkills => simp [hkills] at hl
    | killing => exact (mem_machineLocks.1 hl).2.1
    | killingPort hd => exact h.mine machine l (by simpa [hd, Daemon.kills] using .inr hl)
    | killed ht hq hd => exact h.mine _ l (by simpa [hd, Daemon.kills] using hl)
  busy := by
    intro pid l q ht
    -- a killer that was there keeps its daemon where it is
    have before : ∀ q', task c (.inl pid) = some (.killer l, q') →
        ∃ todo, c'.daemon l.machine = .killingPort pid todo := by
      intro q' hold
      obtain ⟨todo, hd⟩ := h.busy pid l q' hold
      have left : ∀ pid' l' q'', e = .exit pid' → task c (.inl pid') = some (.killer l', q'') →
          l'.machine = l.machine → False := by
        intro pid' l' q'' he hkiller hmachine
        obtain ⟨todo', hd'⟩ := h.busy pid' l' q'' hkiller
        rw [hmachine, hd] at hd'
        cases hd'
        exact killer_leaves (he ▸ hm) hold ht
      have hs := shifts hm l.machine
      generalize c'.daemon l.machine = d at hs
      generalize hmachine : l.machine = machine at hs hd
      cases hs with
      | same => exact ⟨todo, hd⟩
      | idle _ _ hold' =>
        rcases hold' with hold' | ⟨pid', l', q'', he, hkiller, _, hm'⟩
        · exact absurd hd (hold' pid todo)
        · exact (left pid' l' q'' he hkiller (hm'.trans hmachine.symm)).elim
      | killing hold' => exact absurd hd (hold' pid todo)
      | killingPort hd' => simp [hd] at hd'
      | killed hkiller _ _ => exact (left _ _ _ rfl hkiller hmachine.symm).elim
    rcases accounted links hm _ _ ht with ⟨hold, _⟩ | hb
    · exact before q hold
    generalize c'.db = db at hb
    generalize hk : (Kind.killer l, q).1 = k at hb
    cases hb with
    | answered hold how =>
      subst hk
      exact before _ hold
    | @killing machine _ l' todo hd =>
      cases hk
      obtain rfl : l.machine = machine := h.mine machine l (by simp [hd, Daemon.kills])
      cases hm with
      | killNext hd' hfree =>
        rw [hd] at hd'
        cases hd'
        exact ⟨todo, by rw [Cluster.setDaemon_daemon, Function.update_self]⟩
    | _ => cases hk

end Methodical

namespace Alone
variable {c c' : Cluster} {e : Event}

theorem start (db : Db) : Alone (Cluster.start db) where
  toMethodical := .start db
  gone := fun _ _ _ h => by rcases h with ⟨_, h⟩ | ⟨_, _, h⟩ <;> cases h

theorem step (h : Alone c) (ids : LockIds c) (links : Links c) (hm : Move c e c') (hc : Calm c e) :
    Alone c' where
  toMethodical := h.toMethodical.step links hm
  gone := by
    intro machine l hl hk
    rcases live_before links hm hl with hold | ⟨machine', pid, he, hhand⟩
    · have hs := shifts hm machine
      generalize c'.daemon machine = d at hs hk
      cases hs with
      | same => exact h.gone machine l hold hk
      | idle _ hd =>
        rcases hk with ⟨todo, hk⟩ | ⟨pid, todo, hk⟩
        · exact absurd hk (hd todo).1
        · exact absurd hk ((hd todo).2 pid)
      | killing => exact hc l hold
      | killingPort hd => exact h.gone machine l hold (.inl ⟨_, hd⟩)
      | killed _ _ hd => exact h.gone _ l hold (.inr ⟨_, _, hd⟩)
    · rintro rfl
      rw [ids.hands machine' l hhand] at hk
      subst he
      cases hm with
      | startChild hd hfree =>
        rw [Cluster.setDaemon_daemon, Function.update_self] at hk
        rcases hk with ⟨_, hk⟩ | ⟨_, _, hk⟩ <;> cases hk

end Alone

structure NoKills (c : Cluster) : Prop where
  daemon : ∀ machine, ¬ Kills (c.daemon machine)
  killer : ∀ x l q, task c x ≠ some (.killer l, q)

namespace NoKills
variable {c c' : Cluster} {e : Event}

theorem start (db : Db) : NoKills (Cluster.start db) where
  daemon := by rintro machine (⟨_, h⟩ | ⟨_, _, h⟩) <;> cases h
  killer := by
    intro x l q h
    cases x <;> cases h

theorem step (h : NoKills c) (links : Links c) (hm : Move c e c')
    (he : ∀ machine kid, e ≠ .killChildren machine kid) : NoKills c' where
  daemon := by
    intro machine hk
    have hs := shifts hm machine
    generalize c'.daemon machine = d at hs hk
    cases hs with
    | same => exact h.daemon machine hk
    | idle _ hd =>
      rcases hk with ⟨todo, hk⟩ | ⟨pid, todo, hk⟩
      · exact (hd todo).1 hk
      · exact (hd todo).2 pid hk
    | killing => exact he _ _ rfl
    | killingPort hd => exact h.daemon machine (.inl ⟨_, hd⟩)
    | killed _ _ hd => exact h.daemon _ (.inr ⟨_, _, hd⟩)
  killer := by
    intro x l q ht
    rcases accounted links hm x _ ht with ⟨hold, _⟩ | hb
    · exact h.killer x l q hold
    generalize c'.db = db at hb
    generalize hk : (Kind.killer l, q).1 = k at hb
    cases hb with
    | answered hold how =>
      subst hk
      exact h.killer _ l _ hold
    | killing hd => exact h.daemon _ (.inl ⟨_, hd⟩)
    | _ => cases hk

end NoKills

/-- The row a kind of task must find in the table. Once `kill_children` has begun it may
delete that of a dead worker, so those count only in a `strict` reading. -/
def Owns (strict : Prop) : Kind → Lock → Prop
  | .worker l, l' | .makeChild l, l' | .hand l, l' => l = l'
  | .corpse l _, l' | .burial l _, l' => strict ∧ l = l'
  | _, _ => False

theorem Owns.lock {strict : Prop} {k : Kind} {l : Lock} (h : Owns strict k l) : k.lock = some l := by
  cases k with
  | worker | makeChild | hand =>
    cases h
    rfl
  | corpse | burial =>
    obtain ⟨_, rfl⟩ := h
    rfl
  | _ => cases h

def Kept (strict : Prop) (k : Kind) (db : Db) : Prop := ∀ l, Owns strict k l → db.Locked l

def ownership (strict : Prop) : Discipline where
  setting := fun k => Setting.keeping (fun _ P => ∃ l, Owns strict k l ∧ P = fun db => db.Locked l)
    Effect fun db _ => Kept strict k db
  post := fun k x db => (∃ l code u, k = .burial l code ∧ x = .ret u) ∨ Kept strict k db

section Ownership
variable {strict : Prop} {k : Kind} {db : Db}

theorem kept_stable {s t : Db} {o : Option Op} (h : Kept strict k s)
    (hst : ((ownership strict).setting k).rely o s t) : Kept strict k t :=
  fun l hl => hst _ ⟨l, hl, rfl⟩ (h l hl)

theorem holds_ret (h : Kept strict k db) : (ownership strict).Holds k (.ret ()) db :=
  fun _ ht => .inr (kept_stable h ht)

def NoDelete (o : Op) : Prop := ∀ l, o ≠ .sql (.deleteLock l)

theorem holds_of_uses {A : (o : Op) → Except Exn o.Res → Prop} (hA : ∀ o r, A o r) {q : Magus Unit}
    (hq : Uses (S := magus) NoDelete A q) (h : Kept strict k db) :
    Outline ((ownership strict).setting k) (fun _ u => Kept strict k u) q db :=
  Outline.of_uses (fun _ _ _ _ hs hst => kept_stable hs hst) (fun o _ ho hs =>
    ⟨hs, fun r _ hr => ⟨hA o r, fun l hl => Effect.locked hr ho (hs l hl)⟩⟩) hq h

theorem own_noDelete {l : Lock} {ok : Status → Prop} {s : Stmt} (h : OwnStmt l ok s) :
    NoDelete (.sql s) := by
  rintro l' ⟨rfl⟩
  exact h

theorem reset_noDelete {p : PortId} {s : Stmt} (h : ResetStmt p s) : NoDelete (.sql s) := by
  rintro l' ⟨rfl⟩
  exact h

theorem run_holds {l : Lock} (h : Kept strict (.worker l) db) :
    (ownership strict).Holds (.worker l) (run l) db := by
  refine (holds_of_uses (fun _ _ _ => trivial) ((run_uses l : Uses (WorkerOp True l) _ (run l)).mono ?_) h).mono
    fun _ _ => .inr
  rintro o (ho | ⟨_, ho⟩)
  · cases o with
    | sql s => exact own_noDelete ho
    | _ => simp [NoDelete]
  · cases o with
    | sql s => exact reset_noDelete ho
    | _ => simp [NoDelete]

theorem makeChild_holds {l : Lock} (h : Kept strict (.makeChild l) db) :
    (ownership strict).Holds (.makeChild l) (makeChild l) db := by
  refine (holds_of_uses (A := fun _ _ => True) (fun _ _ => trivial)
    ((makeChild_uses l).mono ?_) h).mono fun _ _ => .inr
  intro o ho
  cases o with
  | sql s => exact own_noDelete ho
  | _ => simp [NoDelete]

theorem processDeadChild_holds {l : Lock} {code : ℕ} (h : Kept strict (.burial l code) db) :
    (ownership strict).Holds (.burial l code) (processDeadChild l code) db := by
  refine (holds_of_uses (A := fun _ _ => True) (fun _ _ => trivial) (Uses.when fun _ =>
    Uses.ite (fun _ => ?_) fun _ => ?_) h).bind (fun _ t ht => ?_) (fun _ _ => .inr) fun _ _ => .inr
  · exact reset_uses _ fun _ => reset_noDelete
  · exact setOwn_uses l (K := fun _ => True) trivial fun _ => own_noDelete
  · refine Outline.issue fun u hu => ⟨kept_stable ht hu, fun _ v _ w _ => ?_, fun e v hv w hw => ?_⟩
    · exact .inl ⟨l, code, _, rfl, rfl⟩
    · rw [Effect.error hv] at hw
      exact .inr (kept_stable (kept_stable ht hu) hw)

theorem holds_unowned (h : ∀ l, ¬ Owns strict k l) (q : Magus Unit) :
    (ownership strict).Holds k q db := by
  have kept : ∀ db, Kept strict k db := fun _ l hl => absurd hl (h l)
  exact Outline.trivial (fun db _ => kept db) (fun _ db => .inr (kept db)) q db

end Ownership

theorem call_spares {c : Cluster} {handled : Lock → Prop} {pid : Pid} {k : Kind} {o : Op}
    {κ : Except Exn o.Res → Magus Unit} {ch : Choice} {r : Except Exn o.Res} {db : Db} {l : Lock}
    (conduct : Conduct handled c) (ht : task c (.inl pid) = some (k, .call o κ))
    (ha : answer c.db o ch = some (r, db)) (hl : c.db.Locked l) :
    db.Locked l ∨ ∃ l', l'.id = l.id ∧ l'.port.id = l.port.id ∧ l'.phase = l.phase ∧
      ((∃ code, k = .burial l' code) ∨ k = .killer l') := by
  by_cases hw : ∃ l', o = .sql (.deleteLock l')
  · obtain ⟨l', rfl⟩ := hw
    have hop := conduct.op ht
    have hk : (∃ code, k = .burial l' code) ∨ k = .killer l' := by
      cases k with
      | worker l₁ => rcases hop with hop | ⟨_, hop⟩ <;> cases hop
      | burial l₁ code =>
        rcases hop with hop | ⟨_, hop⟩
        · cases hop
          exact .inl ⟨code, rfl⟩
        · split at hop <;> cases hop
      | killer l₁ =>
        rcases hop with hop | hop
        · cases hop
          exact .inr rfl
        · cases hop
      | _ => cases hop
    rcases answer_sql ha with ⟨x, _, hx⟩ | ⟨_, _, _, _, rfl⟩
    · rw [exec_deleteLock hx]
      split
      · rename_i hl'
        by_cases hsame : l.port.id = l'.port.id ∧ l.phase = l'.phase
        · refine .inr ⟨l', ?_, hsame.1.symm, hsame.2.symm, hk⟩
          unfold Db.Locked at hl hl'
          rw [hsame.1, hsame.2, hl'] at hl
          exact Option.some.inj hl
        · refine .inl ?_
          unfold Db.Locked at hl ⊢
          change (put c.db.lock l'.port.id l'.phase none l.port.id l.phase).map _ = _
          rw [put_apply, if_neg hsame]
          exact hl
      · exact .inl hl
    · exact .inl hl
  · exact .inl (locked_of_same (answer_lock ha fun l' h => hw ⟨l', h⟩) hl)

theorem withLock_locked {db : Db} {row : PortRow} {ph : Phase} {machine : MachineId} {l : Lock}
    (hfree : db.lock row.id ph = none) (hl : db.Locked l) : (withLock db row ph machine).Locked l := by
  unfold Db.Locked at *
  change (put db.lock row.id ph _ l.port.id l.phase).map _ = _
  rw [put_apply, if_neg]
  · exact hl
  · rintro ⟨h₁, h₂⟩
    simp [h₁, h₂, hfree] at hl

/-- What holds in every state of a run without surprises: who is who, who waits for
whom, who kills, and whose rows are there. -/
structure Orderly (handled : Lock → Prop) (strict : Prop) (c : Cluster) : Prop where
  regular : Regular handled c
  obedient : Obedient c
  waiting : Waiting c
  alone : Alone c
  quiet : strict → NoKills c
  owned : (ownership strict).Sound c

/-- No surprise: SIGINT in `waitpid` only under locks of `handled`, no other end to a
worker's wait, and `kill_children` only late or, in a strict run, never. -/
structure Tame (handled : Lock → Prop) (strict : Prop) (c : Cluster) (e : Event) : Prop where
  handles : Handles handled c e
  attended : Attended c e
  calm : Calm c e
  quiet : strict → ∀ machine kid, e ≠ .killChildren machine kid

namespace Orderly
variable {handled : Lock → Prop} {strict : Prop} {c c' : Cluster} {e : Event}

theorem start {db : Db} (h : ∀ p ph, db.lock p ph = none) :
    Orderly handled strict (Cluster.start db) :=
  ⟨.start h, .start db, .start db, .start db, fun _ => .start db, .start db⟩

/-- A task has the row of a lock it owns, until it is done with burying it. -/
theorem locked (h : Orderly handled strict c) {x : Owner} {k : Kind} {q : Magus Unit} {l : Lock}
    (ht : task c x = some (k, q)) (hl : Owns strict k l)
    (hq : ∀ l code u, k = .burial l code → q ≠ .ret u) : c.db.Locked l := by
  have hs := h.owned x k q ht
  cases q with
  | call o κ => exact hs.needs l hl
  | ret u =>
    rcases hs.ended_ret with ⟨l', code, _, hk, _⟩ | hkept
    · exact absurd rfl (hq l' code u hk)
    · exact hkept l hl
  | raise e =>
    rcases hs.ended_raise with ⟨_, _, _, _, hx⟩ | hkept
    · cases hx
    · exact hkept l hl
  | exit code =>
    rcases hs.ended_exit with ⟨_, _, _, _, hx⟩ | hkept
    · cases hx
    · exact hkept l hl

theorem bystander (h : Orderly handled strict c) {x : Owner} {k : Kind} {q : Magus Unit} {db : Db}
    (ht : task c x = some (k, q)) (hi : Interferes c e x db) {l : Lock} (hl : Owns strict k l)
    (hlocked : c.db.Locked l) : db.Locked l := by
  obtain ⟨y, hne, hmoved⟩ := hi
  cases hmoved with
  | still => exact hlocked
  | tick => exact hlocked
  | insert _ hfree => exact withLock_locked hfree hlocked
  | @call pid k' o κ ch r db hcall ha =>
    rcases call_spares h.regular.conduct hcall ha hlocked with hkeep | ⟨l', hid, hport, hphase, hk⟩
    · exact hkeep
    exfalso
    have hxy : x ≠ .inl pid := fun he => hne (he ▸ rfl)
    rcases hk with ⟨code, rfl⟩ | rfl
    · rcases paired h.regular.ids h.waiting ht hcall hxy hl.lock (by rfl) hid.symm with
        ⟨_, hw, _⟩ | ⟨_, _, hm⟩
      · cases hw
      · cases hm
    · -- a daemon kills no lock of a task that lives, and none at all in a strict run
      have hlive : ¬ strict → Live c l ∨ ∃ machine, c.daemon machine = .hand l := by
        intro hstrict
        cases k with
        | worker l₁ | makeChild l₁ =>
          cases hl
          rcases x with pid' | machine
          · exact .inl ⟨pid', _, q, ht, by simp⟩
          · cases hd : c.daemon machine <;> rw [task_daemon hd] at ht <;> cases ht
        | hand l₁ =>
          cases hl
          obtain ⟨machine, _, hd⟩ := daemon_hand ht
          exact .inr ⟨machine, hd⟩
        | corpse | burial => exact absurd hl.1 hstrict
        | _ => cases hl
      by_cases hstrict : strict
      · exact (h.quiet hstrict).killer _ _ _ hcall
      obtain ⟨todo, hd⟩ := h.alone.busy pid l' _ hcall
      have hmachine : l'.machine = l.machine := by
        obtain ⟨row, hrow, hrid⟩ := Option.map_eq_some_iff.1 hlocked
        have h₁ := (named h.regular.ids h.waiting ht hl.lock).2 _ _ row hrow hrid
        have h₂ := (h.regular.ids.named l' (killer_mentions hcall)).2 _ _ row hrow (hrid.trans hid.symm)
        exact h₂.2.2.symm.trans h₁.2.2
      rcases hlive hstrict with hlive | ⟨machine, hhand⟩
      · exact h.alone.gone _ l hlive (.inr ⟨_, _, hd⟩) hmachine.symm
      · rw [hmachine, h.regular.ids.hands machine l hhand, hhand] at hd
        cases hd

theorem owned_step (h : Orderly handled strict c) (hm : Move c e c')
    (hquiet : strict → ∀ machine kid, e ≠ .killChildren machine kid) :
    (ownership strict).Sound c' := by
  refine h.owned.step h.regular.links hm (fun db x k q ht hi => ?_) fun db x k q hb => ?_
  · rintro _ ⟨l, hl, rfl⟩ hlocked
    exact h.bystander ht hi hl hlocked
  have live : ∀ {x : Owner} {k : Kind} {q : Magus Unit}, task c x = some (k, q) →
      (∀ l code u, k = .burial l code → q ≠ .ret u) → Kept strict k c.db :=
    fun ht hq l hl => h.locked ht hl hq
  cases hb with
  | answered ht how => exact (h.owned _ _ _ ht).answer how.effect
  | forked ht =>
    refine makeChild_holds fun l hl => ?_
    exact h.locked ht (l := l) hl (by simp)
  | workerSignaled ht | workerEnded ht =>
    exact holds_ret fun l hl => h.locked ht (l := l) hl.2 (by simp)
  | postponed ht => exact holds_ret fun l hl => h.locked ht (l := l) hl (by simp)
  | abandoned ht => exact holds_ret fun l hl => absurd rfl (hquiet hl.1 _ _)
  | started ht => exact run_holds fun l hl => h.locked ht (l := l) hl (by simp)
  | buried ht => exact processDeadChild_holds fun l hl => h.locked ht (l := l) hl (by simp)
  | childSignaled | childEnded | killing | resetting | indexing | indexingDepends | selected =>
    exact holds_unowned (fun _ hl => by cases hl) _
  | inserted ht hfree =>
    refine holds_ret ?_
    rintro l ⟨rfl⟩
    simp [Db.Locked, withLock]

theorem step (h : Orderly handled strict c) (hm : Move c e c') (ht : Tame handled strict c e) :
    Orderly handled strict c' where
  regular := h.regular.step hm ht.handles
  obedient := h.obedient.step hm
  waiting := h.waiting.step h.obedient hm ht.attended
  alone := h.alone.step h.regular.ids h.regular.links hm ht.calm
  quiet := fun hs => (h.quiet hs).step h.regular.links hm (ht.quiet hs)
  owned := h.owned_step hm ht.quiet

end Orderly
end Mports.MagusOwnership
