import Mathlib.Data.List.Perm.Basic
import Mports.MagusCluster

set_option autoImplicit false

namespace Mports.MagusDaemon
open MagusTables MagusStatements MagusCluster LabelledRuns

structure Child where
  lock : Lock
  workerId : ℕ
  deriving DecidableEq, Repr

structure Corpse where
  lock : Lock
  exitcode : ℕ
  pid : Pid
  deriving DecidableEq, Repr

structure Slave where
  /-- `$opts{j}`. -/
  jobs : ℕ
  children : List (Pid × Child)
  count : ℤ
  dead : List Corpse
  workerIds : List ℕ
  /-- What `get_ready_lock` returned and `start_child` is called with. -/
  hand : Option Lock
  /-- The rows of `locks` this process inserted and has not deleted. -/
  rows : List Lock
  deriving DecidableEq, Repr

inductive Event where
  | lock (l : Lock)
  | started (pid : Pid) (workerId : ℕ)
  | noWorkerIds
  | forkFailed (workerId : ℕ)
  /-- The parent's SELECT of the lock's phase fails, with the worker forked already. -/
  | phaseFailed (workerId : ℕ)
  | reap (pid : Pid) (st : WaitStatus)
  | buried
  /-- A database exception in `process_dead_children`, which leads back to `main`. -/
  | burialFailed
  deriving DecidableEq, Repr

/-- `start_child` dies after it has taken a worker id. -/
def FailedStart (e : Event) : Prop := ∃ id, e = .forkFailed id ∨ e = .phaseFailed id

namespace Slave

def start (jobs : ℕ) : Slave where
  jobs := jobs
  children := []
  count := 0
  dead := []
  workerIds := List.range' 1 jobs
  hand := none
  rows := []

/-- `get_ready_lock` in the loop `while ($Children < $opts{j})`. -/
def takeLock (s : Slave) (l : Lock) : Option Slave :=
  if s.hand = none ∧ s.count < s.jobs ∧ l.id ∉ s.rows.map (·.id) then
    some { s with hand := some l, rows := l :: s.rows }
  else none

/-- `start_child` when the fork succeeds; any free id may come first. -/
def started (s : Slave) (pid : Pid) (workerId : ℕ) : Option Slave :=
  match s.hand with
  | some l =>
    if workerId ∈ s.workerIds ∧ pid ∉ s.children.map (·.1) then
      some { s with
        hand := none
        workerIds := s.workerIds.erase workerId
        children := (pid, ⟨l, workerId⟩) :: s.children
        count := s.count + 1 }
    else none
  | none => none

/-- `die "No worker IDs\n"`. -/
def noWorkerIds (s : Slave) : Option Slave :=
  if s.hand ≠ none ∧ s.workerIds = [] then some { s with hand := none } else none

/-- `die "Couldn't fork: $!\n"`, or the exception of the SELECT: the id was taken before the fork, and the child is put into
`%Children` after the SELECT. -/
def failedStart (s : Slave) (workerId : ℕ) : Option Slave :=
  if s.hand ≠ none ∧ workerId ∈ s.workerIds then
    some { s with hand := none, workerIds := s.workerIds.erase workerId }
  else none

/-- The SIGCHLD handler at one pid; other children than the workers also go through it. -/
def reap (s : Slave) (pid : Pid) (st : WaitStatus) : Slave :=
  match s.children.find? fun entry => entry.1 = pid with
  | some entry => { s with
      children := s.children.erase entry
      dead := s.dead ++ [⟨entry.2.lock, st.exitcode, pid⟩]
      count := s.count - 1
      workerIds := s.workerIds.insert entry.2.workerId }
  | none => s

/-- `process_dead_children` done with its first corpse. -/
def buried (s : Slave) : Option Slave :=
  match s.hand, s.dead with
  | none, corpse :: rest =>
    some { s with dead := rest, rows := s.rows.filter fun r => r.id ≠ corpse.lock.id }
  | _, _ => none

def next (s : Slave) : Event → Option Slave
  | .lock l => s.takeLock l
  | .started pid workerId => s.started pid workerId
  | .noWorkerIds => s.noWorkerIds
  | .forkFailed workerId | .phaseFailed workerId => s.failedStart workerId
  | .reap pid st => some (s.reap pid st)
  | .buried => s.buried
  | .burialFailed => if s.hand = none ∧ s.dead ≠ [] then some s else none

def Step (s : Slave) (e : Event) (t : Slave) : Prop := s.next e = some t

def childIds (s : Slave) : List ℕ := s.children.map (·.2.workerId)

/-- The locks of `%Children` and `@DeadChildren`, and the one in hand. -/
def heldLocks (s : Slave) : List Lock :=
  s.hand.toList ++ (s.children.map (·.2.lock) ++ s.dead.map (·.lock))

/-- Free ids and the children's ids are disjoint and together `1..j`, `$Children` counts
the children, and every row belongs to exactly one holder: a child or a corpse, or
`start_child` while it is at work. -/
structure Accounted (s : Slave) : Prop where
  disjoint : ∀ id ∈ s.workerIds, id ∉ s.childIds
  ids : ∀ id, id ∈ s.workerIds ∨ id ∈ s.childIds ↔ 1 ≤ id ∧ id ≤ s.jobs
  count : s.count = s.children.length
  rows : ∀ l ∈ s.rows, s.heldLocks.count l = 1

/-- The inductive form: the lists themselves are permutations of each other. -/
structure Balanced (s : Slave) : Prop where
  ids : (s.workerIds ++ s.childIds).Perm (List.range' 1 s.jobs)
  keys : (s.children.map (·.1)).Nodup
  count : s.count = s.children.length
  rows : s.rows.Perm s.heldLocks
  rowIds : (s.rows.map (·.id)).Nodup
  room : s.hand ≠ none → s.count < s.jobs

namespace Balanced
variable {s t : Slave}

theorem accounted (h : Balanced s) : Accounted s where
  disjoint := by
    have hnodup : (s.workerIds ++ s.childIds).Nodup := h.ids.nodup_iff.2 (List.nodup_range' ..)
    exact fun id hid hc => (List.nodup_append.1 hnodup).2.2 id hid id hc rfl
  ids := by
    intro id
    rw [← List.mem_append, h.ids.mem_iff, List.mem_range'_1]
    omega
  count := h.count
  rows := by
    intro l hl
    rw [← h.rows.count_eq, List.count_eq_one_of_mem (List.Nodup.of_map _ h.rowIds) hl]

theorem start (jobs : ℕ) : Balanced (Slave.start jobs) where
  ids := by simp [Slave.start, childIds]
  keys := by simp [Slave.start]
  count := rfl
  rows := by simp [Slave.start, heldLocks]
  rowIds := by simp [Slave.start]
  room := by simp [Slave.start]

theorem takeLock {l : Lock} (h : Balanced s) (hs : s.takeLock l = some t) : Balanced t := by
  simp only [Slave.takeLock, Option.ite_none_right_eq_some, Option.some.injEq] at hs
  obtain ⟨⟨hhand, hroom, hnew⟩, rfl⟩ := hs
  have hrows := h.rows
  simp only [heldLocks, hhand, Option.toList_none, List.nil_append] at hrows
  exact {
    ids := h.ids
    keys := h.keys
    count := h.count
    rows := hrows.cons l
    rowIds := List.nodup_cons.2 ⟨hnew, h.rowIds⟩
    room := fun _ => hroom }

theorem started {pid : Pid} {workerId : ℕ} (h : Balanced s)
    (hs : s.started pid workerId = some t) : Balanced t := by
  unfold Slave.started at hs
  split at hs
  · rename_i l hhand
    simp only [Option.ite_none_right_eq_some, Option.some.injEq] at hs
    obtain ⟨⟨hid, hpid⟩, rfl⟩ := hs
    have hrows := h.rows
    simp only [heldLocks, hhand, Option.toList_some, List.cons_append, List.nil_append] at hrows
    exact {
      ids := by
        refine List.Perm.trans ?_ h.ids
        simp only [childIds, List.map_cons]
        exact List.perm_middle.trans ((List.perm_cons_erase hid).symm.append_right _)
      keys := List.nodup_cons.2 ⟨hpid, h.keys⟩
      count := by simp [h.count]
      rows := hrows
      rowIds := h.rowIds
      room := fun hne => absurd rfl hne }
  · cases hs

theorem reap (h : Balanced s) (pid : Pid) (st : WaitStatus) : Balanced (s.reap pid st) := by
  unfold Slave.reap
  split
  · rename_i entry hfind
    have hmem := List.mem_of_find?_eq_some hfind
    have hperm := List.perm_cons_erase hmem
    have hids := hperm.map (fun x : Pid × Child => x.2.workerId)
    have hlocks := hperm.map (fun x : Pid × Child => x.2.lock)
    have hlen := hperm.length_eq
    have hbusy : entry.2.workerId ∉ s.workerIds := fun hfree =>
      h.accounted.disjoint _ hfree (List.mem_map.2 ⟨entry, hmem, rfl⟩)
    exact {
      ids := by
        refine List.Perm.trans ?_ h.ids
        simp only [List.insert_of_not_mem hbusy, childIds]
        exact List.perm_middle.symm.trans (hids.symm.append_left _)
      keys := List.Nodup.sublist (List.erase_sublist.map _) h.keys
      count := by
        simp only [List.length_cons] at hlen
        simp only [h.count, hlen]
        omega
      rows := by
        refine h.rows.trans (List.Perm.append_left _ ?_)
        simp only [List.map_append, List.map_cons, List.map_nil]
        refine (hlocks.append_right _).trans ?_
        simp only [List.map_cons, List.cons_append]
        rw [← List.append_assoc]
        exact (List.perm_append_singleton _ _).symm
      rowIds := h.rowIds
      room := fun hne => by have := h.room hne; simp only; omega }
  · exact h

theorem buried (h : Balanced s) (hs : s.buried = some t) : Balanced t := by
  unfold Slave.buried at hs
  split at hs
  · rename_i corpse rest hhand hdead
    cases hs
    have hrows := h.rows
    simp only [heldLocks, hhand, hdead, Option.toList_none, List.nil_append, List.map_cons] at hrows
    have hrows' := hrows.trans List.perm_middle
    have hnodup := (hrows'.map (·.id)).nodup_iff.1 h.rowIds
    simp only [List.map_cons, List.nodup_cons] at hnodup
    have hfilter := hrows'.filter fun r : Lock => decide (r.id ≠ corpse.lock.id)
    exact {
      ids := h.ids
      keys := h.keys
      count := h.count
      rows := by
        refine hfilter.trans ?_
        simp only [heldLocks, hhand, Option.toList_none, List.nil_append]
        rw [List.filter_cons_of_neg (by simp), List.filter_eq_self.2]
        intro r hr
        simp only [ne_eq, decide_not, Bool.not_eq_eq_eq_not, Bool.not_true, decide_eq_false_iff_not]
        exact fun he => hnodup.1 (he ▸ List.mem_map.2 ⟨r, hr, rfl⟩)
      rowIds := List.Nodup.sublist (List.filter_sublist.map _) h.rowIds
      room := h.room }
  · cases hs

theorem workerIds_ne_nil (h : Balanced s) (hhand : s.hand ≠ none) : s.workerIds ≠ [] := by
  intro hnil
  have hlen := h.ids.length_eq
  have hroom := h.room hhand
  simp only [hnil, childIds, List.nil_append, List.length_map, List.length_range'] at hlen
  rw [h.count] at hroom
  omega

theorem next {e : Event} (h : Balanced s) (hs : Step s e t) (he : ¬ FailedStart e) : Balanced t := by
  cases e with
  | lock l => exact h.takeLock hs
  | started pid workerId => exact h.started hs
  | noWorkerIds =>
    simp only [Step, Slave.next, Slave.noWorkerIds, Option.ite_none_right_eq_some] at hs
    exact absurd hs.1.2 (h.workerIds_ne_nil hs.1.1)
  | forkFailed workerId => exact absurd ⟨workerId, .inl rfl⟩ he
  | phaseFailed workerId => exact absurd ⟨workerId, .inr rfl⟩ he
  | reap pid st =>
    cases hs
    exact h.reap pid st
  | buried => exact h.buried hs
  | burialFailed =>
    simp only [Step, Slave.next, Option.ite_none_right_eq_some, Option.some.injEq] at hs
    exact hs.2 ▸ h

theorem not_accounted_of_failedStart {e : Event} (h : Balanced s) (hs : Step s e t) (he : FailedStart e) :
    ¬ Accounted t := by
  obtain ⟨workerId, hfailed⟩ : ∃ workerId, s.failedStart workerId = some t := by
    obtain ⟨workerId, rfl | rfl⟩ := he
    · exact ⟨workerId, hs⟩
    · exact ⟨workerId, hs⟩
  simp only [Slave.failedStart, Option.ite_none_right_eq_some, Option.some.injEq] at hfailed
  obtain ⟨⟨_, hid⟩, rfl⟩ := hfailed
  intro ha
  have hnodup : s.workerIds.Nodup :=
    (List.nodup_append.1 (h.ids.nodup_iff.2 (List.nodup_range' ..))).1
  rcases (ha.ids workerId).2 ((h.accounted.ids workerId).1 (.inl hid)) with hfree | hbusy
  · exact hnodup.not_mem_erase hfree
  · exact h.accounted.disjoint workerId hid hbusy

end Balanced

/-- The accounts are in order in every state of a run exactly when no start of a worker failed in it. -/
theorem accounted_iff_no_failedStart {jobs : ℕ} {h : List (Slave × Event)} {t : Slave}
    (run : Run Step (start jobs) h t) :
    ((∀ x ∈ h, Accounted x.1) ∧ Accounted t) ↔ AllSteps (fun _ e => ¬ FailedStart e) h := by
  have balanced : ∀ {h : List (Slave × Event)} {t : Slave}, Run Step (start jobs) h t →
      AllSteps (fun _ e => ¬ FailedStart e) h → Balanced t :=
    fun run all => run.invariant Balanced all (.start jobs) fun _ _ _ hs hstep he => hs.next hstep he
  constructor
  · rintro ⟨hstates, ht⟩
    induction run with
    | start => exact allSteps_nil _
    | @next h s t e run last ih =>
      have hprefix := ih (fun x hx => hstates x (List.mem_cons_of_mem _ hx))
        (hstates (s, e) List.mem_cons_self)
      refine (allSteps_cons _ _ _).2 ⟨fun he => ?_, hprefix⟩
      exact (balanced run hprefix).not_accounted_of_failedStart last he ht
  · intro all
    refine ⟨fun x hx => ?_, (balanced run all).accounted⟩
    obtain ⟨h', hrun, hsuffix⟩ := run.before hx
    exact (balanced hrun (all.suffix hsuffix)).accounted

def sampleLock : Lock :=
  ⟨0, { id := 1, run := 1, name := "misc/a", version := "1", pkgname := "a" }, .build, 1⟩

theorem one_worker_accounted : ∃ h t, Run Step (start 1) h t ∧ h.length = 4 ∧
    (∀ x ∈ h, Accounted x.1) ∧ Accounted t := by
  have run := run_of_history next (.start : Run Step (start 1) [] (start 1))
    (w := [.lock sampleLock, .started 100 1, .reap 100 (.exited 0), .buried]) rfl
  exact ⟨_, _, run, rfl, (accounted_iff_no_failedStart run).2 (by simp [AllSteps, FailedStart])⟩

/-- With one job and one failed fork the id 1 is gone, and the row belongs to nobody. -/
theorem forkFailed_leaks : ∃ h t, Run Step (start 1) h t ∧
    h.map (·.2) = [.forkFailed 1, .lock sampleLock] ∧ ¬ Accounted t ∧
      t.workerIds = [] ∧ t.children = [] ∧ t.rows = [sampleLock] ∧ t.heldLocks = [] := by
  have run := run_of_history next (.start : Run Step (start 1) [] (start 1))
    (w := [.lock sampleLock, .forkFailed 1]) rfl
  refine ⟨_, _, run, rfl, fun ha => ?_, rfl, rfl, rfl, rfl⟩
  have hrow := ha.rows sampleLock (by decide)
  exact absurd hrow (by decide)

end Slave
end Mports.MagusDaemon
