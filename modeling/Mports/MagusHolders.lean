import Mports.MagusCluster
import Mports.MagusEffects

set_option autoImplicit false

/-!
Who answers for which lock. Lock ids are never reused, so the row of a lock has one
holder at most, from the INSERT over the worker to its burial.
-/
namespace Mports.MagusHolders
open MagusTables MagusReady MagusEffects MagusCluster

/-- What can hold something: a process or a daemon. -/
abbrev Owner := Pid ⊕ MachineId

section View
variable {α : Type} (f : Option Proc → α) (g : Daemon → α)

def view (c : Cluster) : Owner → α
  | .inl pid => f (c.procs pid)
  | .inr machine => g (c.daemon machine)

theorem view_setProc (c : Cluster) (pid : Pid) (proc : Option Proc) :
    view f g (c.setProc pid proc) = Function.update (view f g c) (.inl pid) (f proc) := by
  funext x
  rcases x with p | m
  · by_cases h : p = pid
    · subst h
      simp [view, Cluster.setProc]
    · simp [view, Cluster.setProc, h]
  · simp [view]

theorem view_setDaemon (c : Cluster) (machine : MachineId) (d : Daemon) :
    view f g (c.setDaemon machine d) = Function.update (view f g c) (.inr machine) (g d) := by
  funext x
  rcases x with p | m
  · simp [view]
  · by_cases h : m = machine
    · subst h
      simp [view, Cluster.setDaemon]
    · simp [view, Cluster.setDaemon, h]

@[simp] theorem view_setDb (c : Cluster) (db : Db) : view f g (c.setDb db) = view f g c := by
  funext x
  cases x <;> rfl

@[simp] theorem view_setChildren (c : Cluster) (machine : MachineId) (pids : List Pid) :
    view f g (c.setChildren machine pids) = view f g c := by
  funext x
  cases x <;> rfl

end View

def holder (c : Cluster) : Owner → Option Lock :=
  view (fun proc => proc.bind Proc.lock) Daemon.lock c

def kills (c : Cluster) : Owner → List Lock :=
  view (fun proc => proc.elim [] Proc.kills) Daemon.kills c

def Mentions (c : Cluster) (l : Lock) : Prop :=
  (∃ x, holder c x = some l) ∨ ∃ x, l ∈ kills c x

/-- A row with the lock's id can only be the lock's own row. -/
def Names (db : Db) (l : Lock) : Prop :=
  l.id < db.nextLock ∧ ∀ p ph r, db.lock p ph = some r → r.id = l.id →
    p = l.port.id ∧ ph = l.phase ∧ r.machine = l.machine

/-- No lock is mentioned after a step that was not mentioned before. -/
structure Within (c c' : Cluster) : Prop where
  holder : ∀ x l, holder c' x = some l → holder c x = some l
  kills : ∀ x l, l ∈ kills c' x → Mentions c l

namespace Within
variable {c c' c'' : Cluster}

theorem refl (c : Cluster) : Within c c := ⟨fun _ _ h => h, fun x _ h => .inr ⟨x, h⟩⟩

theorem mentions (h : Within c c') {l : Lock} (hl : Mentions c' l) : Mentions c l := by
  rcases hl with ⟨x, hx⟩ | ⟨x, hx⟩
  · exact .inl ⟨x, h.holder x l hx⟩
  · exact h.kills x l hx

theorem trans (h : Within c c') (h' : Within c' c'') : Within c c'' :=
  ⟨fun x l hl => h.holder x l (h'.holder x l hl), fun x l hl => h.mentions (h'.kills x l hl)⟩

theorem setDb (h : Within c c') (db : Db) : Within c (c'.setDb db) :=
  ⟨fun x l hl => h.holder x l (by simpa [MagusHolders.holder] using hl),
    fun x l hl => h.kills x l (by simpa [MagusHolders.kills] using hl)⟩

theorem setChildren (h : Within c c') (machine : MachineId) (pids : List Pid) :
    Within c (c'.setChildren machine pids) :=
  ⟨fun x l hl => h.holder x l (by simpa [MagusHolders.holder] using hl),
    fun x l hl => h.kills x l (by simpa [MagusHolders.kills] using hl)⟩

theorem setProc (h : Within c c') {pid : Pid} {proc : Option Proc}
    (hlock : ∀ l, proc.bind Proc.lock = some l → MagusHolders.holder c' (.inl pid) = some l)
    (hkills : ∀ l ∈ proc.elim [] Proc.kills, Mentions c' l) : Within c (c'.setProc pid proc) := by
  refine h.trans ⟨fun x l hl => ?_, fun x l hl => ?_⟩
  · rw [MagusHolders.holder, view_setProc, Function.update_apply] at hl
    split at hl
    · rename_i hx
      exact hx ▸ hlock l hl
    · exact hl
  · rw [MagusHolders.kills, view_setProc, Function.update_apply] at hl
    split at hl
    · exact hkills l hl
    · exact .inr ⟨x, hl⟩

theorem replace (h : Within c c') {pid : Pid} {old : Proc} {new : Option Proc}
    (hold : c'.procs pid = some old) (hlock : ∀ l, new.bind Proc.lock = some l → old.lock = some l)
    (hkills : ∀ l ∈ new.elim [] Proc.kills, l ∈ old.kills) : Within c (c'.setProc pid new) :=
  h.setProc (fun l hl => by simp [MagusHolders.holder, view, hold, hlock l hl])
    fun l hl => .inr ⟨.inl pid, by simpa [MagusHolders.kills, view, hold] using hkills l hl⟩

theorem setFree (h : Within c c') {pid : Pid} {new : Option Proc}
    (hlock : new.bind Proc.lock = none) (hkills : new.elim [] Proc.kills = []) :
    Within c (c'.setProc pid new) :=
  h.setProc (fun l hl => by simp [hlock] at hl) fun l hl => by simp [hkills] at hl

theorem idle (h : Within c c') {machine : MachineId} {d : Daemon} (hlock : d.lock = none)
    (hkills : d.kills = []) : Within c (c'.setDaemon machine d) :=
  h.trans ⟨fun x l hl => by
      rw [MagusHolders.holder, view_setDaemon, Function.update_apply] at hl
      split at hl
      · simp [hlock] at hl
      · exact hl,
    fun x l hl => by
      rw [MagusHolders.kills, view_setDaemon, Function.update_apply] at hl
      split at hl
      · simp [hkills] at hl
      · exact .inr ⟨x, hl⟩⟩

theorem setDaemon (h : Within c c') {machine : MachineId} {d : Daemon}
    (hlock : ∀ l, d.lock = some l → MagusHolders.holder c' (.inr machine) = some l)
    (hkills : ∀ l ∈ d.kills, Mentions c' l) : Within c (c'.setDaemon machine d) := by
  refine h.trans ⟨fun x l hl => ?_, fun x l hl => ?_⟩
  · rw [MagusHolders.holder, view_setDaemon, Function.update_apply] at hl
    split at hl
    · rename_i hx
      exact hx ▸ hlock l hl
    · exact hl
  · rw [MagusHolders.kills, view_setDaemon, Function.update_apply] at hl
    split at hl
    · exact hkills l hl
    · exact .inr ⟨x, hl⟩

end Within

structure LockIds (c : Cluster) : Prop where
  rowFresh : ∀ p ph r, c.db.lock p ph = some r → r.id < c.db.nextLock
  rowUnique : ∀ p ph q qh r r', c.db.lock p ph = some r → c.db.lock q qh = some r' →
    r.id = r'.id → p = q ∧ ph = qh
  named : ∀ l, Mentions c l → Names c.db l
  unique : ∀ x y l l', holder c x = some l → holder c y = some l' → l.id = l'.id → x = y
  hands : ∀ machine l, c.daemon machine = .hand l → l.machine = machine

namespace LockIds
variable {c c' : Cluster}

theorem start {db : Db} (h : ∀ p ph, db.lock p ph = none) : LockIds (Cluster.start db) where
  rowFresh := fun p ph r hr => by simp [Cluster.start, h] at hr
  rowUnique := fun p ph _ _ r _ hr => by simp [Cluster.start, h] at hr
  named := by
    rintro l (⟨x, hx⟩ | ⟨x, hx⟩)
    · cases x <;> cases hx
    · cases x <;> cases hx
  unique := fun x _ l _ hx => by cases x <;> cases hx
  hands := fun _ _ hd => by cases hd

theorem of_within (h : LockIds c) (hw : Within c c') (hnext : c'.db.nextLock = c.db.nextLock)
    (hrows : ∀ p ph r, c'.db.lock p ph = some r → c.db.lock p ph = some r) : LockIds c' where
  rowFresh := fun p ph r hr => hnext ▸ h.rowFresh p ph r (hrows p ph r hr)
  rowUnique := fun p ph q qh r r' hr hr' =>
    h.rowUnique p ph q qh r r' (hrows p ph r hr) (hrows q qh r' hr')
  named := fun l hl => by
    obtain ⟨hid, hrow⟩ := h.named l (hw.mentions hl)
    exact ⟨hnext ▸ hid, fun p ph r hr => hrow p ph r (hrows p ph r hr)⟩
  unique := fun x y l l' hx hy => h.unique x y l l' (hw.holder x l hx) (hw.holder y l' hy)
  hands := fun machine l hd => by
    have hx : holder c (.inr machine) = some l := hw.holder (.inr machine) l (by
      simp [holder, view, hd, Daemon.lock])
    cases hc : c.daemon machine with
    | hand l' =>
      simp only [holder, view, hc, Daemon.lock, Option.some.injEq] at hx
      exact hx ▸ h.hands machine l' hc
    | _ => simp [holder, view, hc, Daemon.lock] at hx

theorem holder_of_proc {pid : Pid} {proc : Proc} {l : Lock} (hproc : c.procs pid = some proc)
    (hl : proc.lock = some l) : holder c (.inl pid) = some l := by
  simp [holder, view, hproc, hl]

theorem holder_of_hand {machine : MachineId} {l : Lock} (hd : c.daemon machine = .hand l) :
    holder c (.inr machine) = some l := by
  simp [holder, view, hd, Daemon.lock]

theorem insert (h : LockIds c) {machine : MachineId} {row : PortRow} {ph : Phase}
    (hd : c.daemon machine = .picked row ph) :
    LockIds ((c.setDb { c.db with
        lock := put c.db.lock row.id ph (some ⟨c.db.nextLock, machine⟩)
        nextLock := c.db.nextLock + 1 }).setDaemon machine
      (.hand ⟨c.db.nextLock, row, ph, machine⟩)) := by
  have hholder : ∀ x l, holder ((c.setDb { c.db with
        lock := put c.db.lock row.id ph (some ⟨c.db.nextLock, machine⟩)
        nextLock := c.db.nextLock + 1 }).setDaemon machine
      (.hand ⟨c.db.nextLock, row, ph, machine⟩)) x = some l →
      (x = .inr machine ∧ l = ⟨c.db.nextLock, row, ph, machine⟩) ∨ holder c x = some l := by
    intro x l hl
    rw [holder, view_setDaemon, view_setDb, Function.update_apply] at hl
    split at hl
    · cases hl
      exact .inl ⟨‹_›, rfl⟩
    · exact .inr hl
  have hrow : ∀ q qh r, put c.db.lock row.id ph (some ⟨c.db.nextLock, machine⟩) q qh = some r →
      (q = row.id ∧ qh = ph ∧ r = ⟨c.db.nextLock, machine⟩) ∨ c.db.lock q qh = some r := by
    intro q qh r hr
    rw [put_apply] at hr
    split at hr
    · rename_i hq
      cases hr
      exact .inl ⟨hq.1, hq.2, rfl⟩
    · exact .inr hr
  refine ⟨fun q qh r hr => ?_, fun p qh q qh' r r' hr hr' he => ?_, fun l hl => ?_,
    fun x y l l' hx hy he => ?_, fun m l hm => ?_⟩
  · rcases hrow q qh r hr with ⟨_, _, rfl⟩ | hr
    · exact Nat.lt_succ_self _
    · exact Nat.lt_succ_of_lt (h.rowFresh q qh r hr)
  · rcases hrow p qh r hr with ⟨rfl, rfl, rfl⟩ | hold <;>
      rcases hrow q qh' r' hr' with ⟨rfl, rfl, rfl⟩ | hold'
    · exact ⟨rfl, rfl⟩
    · exact absurd he (Nat.ne_of_gt (h.rowFresh _ _ _ hold'))
    · exact absurd he (Nat.ne_of_lt (h.rowFresh _ _ _ hold))
    · exact h.rowUnique _ _ _ _ _ _ hold hold' he
  · have hold : l = ⟨c.db.nextLock, row, ph, machine⟩ ∨ Mentions c l := by
      rcases hl with ⟨x, hx⟩ | ⟨x, hx⟩
      · rcases hholder x l hx with ⟨_, rfl⟩ | hx
        · exact .inl rfl
        · exact .inr (.inl ⟨x, hx⟩)
      · rw [kills, view_setDaemon, view_setDb, Function.update_apply] at hx
        split at hx
        · cases hx
        · exact .inr (.inr ⟨x, hx⟩)
    rcases hold with rfl | hold
    · refine ⟨Nat.lt_succ_self _, fun q qh r hr he => ?_⟩
      rcases hrow q qh r hr with ⟨rfl, rfl, rfl⟩ | hr
      · exact ⟨rfl, rfl, rfl⟩
      · exact absurd he (Nat.ne_of_lt (h.rowFresh _ _ _ hr))
    · obtain ⟨hid, hnamed⟩ := h.named l hold
      refine ⟨Nat.lt_succ_of_lt hid, fun q qh r hr he => ?_⟩
      rcases hrow q qh r hr with ⟨rfl, rfl, rfl⟩ | hr
      · exact absurd he (Nat.ne_of_gt hid)
      · exact hnamed q qh r hr he
  · rcases hholder x l hx with ⟨rfl, rfl⟩ | hx <;> rcases hholder y l' hy with ⟨rfl, rfl⟩ | hy
    · rfl
    · exact absurd he (Nat.ne_of_gt (h.named l' (.inl ⟨y, hy⟩)).1)
    · exact absurd he (Nat.ne_of_lt (h.named l (.inl ⟨x, hx⟩)).1)
    · exact h.unique x y l l' hx hy he
  · rcases hholder (.inr m) l (holder_of_hand hm) with ⟨he, rfl⟩ | hx
    · cases he
      rfl
    · cases hc : c.daemon m with
      | hand l' =>
        rw [holder_of_hand hc, Option.some.injEq] at hx
        exact hx ▸ h.hands m l' hc
      | _ => simp [holder, view, hc, Daemon.lock] at hx

theorem startChild (h : LockIds c) {machine : MachineId} {pid : Pid} {l : Lock} {proc : Proc}
    (hd : c.daemon machine = .hand l) (hlock : proc.lock = some l) (hkills : proc.kills = []) :
    LockIds ((c.setProc pid (some proc)).setDaemon machine .main) := by
  have hholder : ∀ x l', holder ((c.setProc pid (some proc)).setDaemon machine .main) x = some l' →
      x ≠ .inr machine ∧ ((x = .inl pid ∧ l' = l) ∨ holder c x = some l') := by
    intro x l' hl
    rw [holder, view_setDaemon, view_setProc, Function.update_apply, Function.update_apply] at hl
    split at hl
    · cases hl
    · split at hl
      · exact ⟨‹_›, .inl ⟨‹_›, by simpa [hlock] using hl.symm⟩⟩
      · exact ⟨‹_›, .inr hl⟩
  have hment : ∀ l', Mentions ((c.setProc pid (some proc)).setDaemon machine .main) l' →
      Mentions c l' := by
    rintro l' (⟨x, hx⟩ | ⟨x, hx⟩)
    · rcases (hholder x l' hx).2 with ⟨_, rfl⟩ | hx
      · exact .inl ⟨_, holder_of_hand hd⟩
      · exact .inl ⟨x, hx⟩
    · rw [kills, view_setDaemon, view_setProc, Function.update_apply, Function.update_apply] at hx
      split at hx
      · cases hx
      · split at hx
        · simp [hkills] at hx
        · exact .inr ⟨x, hx⟩
  refine ⟨h.rowFresh, h.rowUnique, fun l' hl => h.named l' (hment l' hl),
    fun x y l₁ l₂ hx hy he => ?_, fun m l' hm => ?_⟩
  · obtain ⟨hxm, ⟨rfl, rfl⟩ | hx⟩ := hholder x l₁ hx <;>
      obtain ⟨hym, ⟨rfl, rfl⟩ | hy⟩ := hholder y l₂ hy
    · rfl
    · exact absurd (h.unique _ _ _ _ (holder_of_hand hd) hy he).symm hym
    · exact absurd (h.unique _ _ _ _ hx (holder_of_hand hd) he) hxm
    · exact h.unique x y l₁ l₂ hx hy he
  · rw [Cluster.setDaemon_daemon, Function.update_apply] at hm
    split at hm
    · cases hm
    · exact h.hands m l' hm

theorem named_machineLocks (h : LockIds c) {machine : MachineId} {l : Lock}
    (hl : l ∈ machineLocks c.db machine) : Names c.db l := by
  obtain ⟨_, hm, hrow⟩ := mem_machineLocks.1 hl
  refine ⟨h.rowFresh _ _ _ hrow, fun p ph r hr he => ?_⟩
  obtain ⟨rfl, rfl⟩ := h.rowUnique _ _ _ _ _ _ hr hrow he
  rw [hr, Option.some.injEq] at hrow
  exact ⟨rfl, rfl, by rw [hrow, hm]⟩

theorem killing (h : LockIds c) {machine : MachineId} {db : Db} (hdb : db = c.db) :
    LockIds (c.setDaemon machine (.killing (machineLocks db machine))) := by
  subst hdb
  have hw : ∀ x l, holder (c.setDaemon machine (.killing (machineLocks c.db machine))) x = some l →
      holder c x = some l := by
    intro x l hl
    rw [holder, view_setDaemon, Function.update_apply] at hl
    split at hl
    · cases hl
    · exact hl
  refine ⟨h.rowFresh, h.rowUnique, ?_, fun x y l l' hx hy => h.unique x y l l' (hw x l hx) (hw y l' hy),
    fun m l hm => ?_⟩
  · rintro l (⟨x, hx⟩ | ⟨x, hx⟩)
    · exact h.named l (.inl ⟨x, hw x l hx⟩)
    · rw [kills, view_setDaemon, Function.update_apply] at hx
      split at hx
      · exact h.named_machineLocks hx
      · exact h.named l (.inr ⟨x, hx⟩)
  · rw [Cluster.setDaemon_daemon, Function.update_apply] at hm
    split at hm
    · cases hm
    · exact h.hands m l hm

theorem step {e : Event} (h : LockIds c) (hm : Move c e c') : LockIds c' := by
  have here := Within.refl c
  cases hm with
  | @call pid ch proc o k r db hproc hprog ha =>
    refine h.of_within ((here.setDb db).replace hproc ?_ ?_) (answer_nextLock ha)
      fun p ph row hr => answer_lock_sub ha hr
    · simp
    · simp
  | fork hproc hfree =>
    exact h.of_within ((here.replace hproc (by simp [Proc.lock]) (by simp [Proc.kills])).setFree rfl rfl)
      rfl fun _ _ _ hr => hr
  | waited hproc hchild | waitedAgain hproc hchild =>
    exact h.of_within ((here.replace hproc (by simp [Proc.lock]) (by simp [Proc.kills])).setFree rfl rfl)
      rfl fun _ _ _ hr => hr
  | interruptWait hproc | interruptWorker hproc | interruptChild hproc | signalWorker hproc
  | signalChild hproc | exitWorker hproc | exitChild hproc =>
    exact h.of_within (here.replace hproc (by simp [Proc.lock]) (by simp [Proc.kills])) rfl
      fun _ _ _ hr => hr
  | buried hproc hd =>
    exact h.of_within ((here.setFree rfl rfl).idle rfl rfl) rfl fun _ _ _ hr => hr
  | postponed hproc hd =>
    exact h.of_within ((here.replace hproc (by simp [Proc.lock]) (by simp [Proc.kills])).idle rfl rfl)
      rfl fun _ _ _ hr => hr
  | @killed pid pid' l todo u hproc hd =>
    refine h.of_within ((here.setFree rfl rfl).setDaemon (by simp [Daemon.lock]) ?_) rfl
      fun _ _ _ hr => hr
    exact fun l' hl' => .inr ⟨.inr l.machine, by simpa [kills, view, hd, Daemon.kills] using hl'⟩
  | killAbandoned hproc hd =>
    exact h.of_within ((here.setFree rfl rfl).idle rfl rfl) rfl fun _ _ _ hr => hr
  | exitReset hproc hst | exitIndex hproc hst =>
    exact h.of_within (here.setFree rfl rfl) rfl fun _ _ _ hr => hr
  | select hd hs => exact h.of_within (here.idle rfl rfl) rfl fun _ _ _ hr => hr
  | insert hd hfree => exact h.insert hd
  | duplicate hd hheld => exact h.of_within (here.idle rfl rfl) rfl fun _ _ _ hr => hr
  | giveUp hd | forkFailed hd => exact h.of_within (here.idle rfl rfl) rfl fun _ _ _ hr => hr
  | @startChild machine pid l hd hfree =>
    exact (h.startChild hd rfl rfl).of_within
      ⟨fun x l hl => by simpa [holder, view_setDaemon] using hl,
        fun x l hl => .inr ⟨x, by simpa [kills, view_setDaemon] using hl⟩⟩ rfl fun _ _ _ hr => hr
  | reap hproc =>
    exact h.of_within ((here.replace hproc (by simp [Proc.lock]) (by simp [Proc.kills])).setChildren _ _)
      rfl fun _ _ _ hr => hr
  | bury hproc hd =>
    exact h.of_within ((here.replace hproc (by simp [Proc.lock]) (by simp [Proc.kills])).idle rfl rfl)
      rfl fun _ _ _ hr => hr
  | @killChildren machine kid stopped reaped hstop hreap =>
    have hstopped : Within c stopped ∧ stopped.db = c.db := by
      rcases hstop with ⟨rfl, _⟩ | ⟨pid, l, code, q, _, hproc, rfl⟩
      · exact ⟨here, rfl⟩
      · exact ⟨here.replace hproc (by simp [Proc.lock]) (by simp [Proc.kills]), rfl⟩
    have hreaped : Within c reaped ∧ reaped.db = c.db := by
      rcases hreap with ⟨_, rfl⟩ | ⟨k, l, st, _, _, _, rfl⟩
      · exact hstopped
      · exact ⟨hstopped.1.setFree rfl rfl, hstopped.2⟩
    exact (h.of_within hreaped.1 (by rw [hreaped.2]) (by rw [hreaped.2]; exact fun _ _ _ hr => hr)).killing
      hreaped.2.symm
  | @killNext machine pid l todo hd hfree =>
    refine h.of_within ((here.setProc (by simp [Proc.lock]) ?_).setDaemon (by simp [Daemon.lock]) ?_)
      rfl fun _ _ _ hr => hr
    · intro l' hl'
      obtain rfl : l' = l := by simpa [Proc.kills] using hl'
      exact .inr ⟨.inr machine, by simp [kills, view, hd, Daemon.kills]⟩
    · intro l' hl'
      exact .inr ⟨.inr machine, by simpa [kills, view, hd, Daemon.kills] using .inr hl'⟩
  | resetPort hfree | index hfree | indexDepends hfree =>
    exact h.of_within (here.setFree rfl rfl) rfl fun _ _ _ hr => hr
  | tick => exact h.of_within (here.setDb _) rfl fun _ _ _ hr => hr

end LockIds
end Mports.MagusHolders
