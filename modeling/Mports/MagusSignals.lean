import Mports.LabelledRuns
import Mports.MagusCluster

set_option autoImplicit false

namespace Mports.MagusSignals
open MagusCluster LabelledRuns

inductive Point where
  /-- `if (@DeadChildren)`. -/
  | look
  /-- `while (@DeadChildren)` in `process_dead_children`. -/
  | bury
  /-- `while ($Children < $opts{j})`. -/
  | room
  /-- `get_current_run`, up to the comparison of the runs. -/
  | currentRun
  /-- `if ($Children)` under `local $SIG{CHLD} = 'DEFAULT'`. -/
  | moving
  /-- The new tree is fetched, up to `exec`. -/
  | fetching
  /-- `Magus::Lock->get_ready_lock($run)`. -/
  | readyLock
  /-- `sleep($Magus::Config{DoneWaitPeriod})`. -/
  | doze
  /-- `fork`, with SIGCHLD blocked. -/
  | fork
  /-- `$Children{$pid} = ...`. -/
  | record (pid : Pid)
  /-- `sigprocmask(SIG_SETMASK, $oldset)`. -/
  | unblock
  /-- `sleep` without an argument, not yet called. -/
  | sleep
  | asleep
  | replaced
  deriving DecidableEq, Repr

/-- `$SIG{CHLD}` is `'DEFAULT'`. -/
def Point.isDefault : Point → Bool
  | .moving | .fetching => true
  | _ => false

/-- SIGCHLD is blocked by `sigprocmask`. -/
def Point.blocks : Point → Bool
  | .fork | .record _ | .unblock => true
  | _ => false

structure Loop where
  /-- `$opts{j}`. -/
  jobs : ℕ
  /-- The keys of `%Children`. -/
  children : List Pid
  /-- `$Children`. -/
  count : ℤ
  /-- The pids of `@DeadChildren`. -/
  dead : List Pid
  living : List Pid
  exited : List Pid
  pending : Bool
  handling : Bool
  point : Point
  deriving DecidableEq, Repr

inductive Event where
  | look
  | bury
  | buryFailed
  | room
  /-- There is no run, or that of the machine, or another one. -/
  | currentRun (found : Option Bool)
  | moving
  | exec
  | readyLock (found : Bool)
  | doze
  | fork (pid : Option Pid)
  | record
  | unblock
  | sleep
  /-- An exception at the current operation that leads back to `main`. -/
  | failed
  | exit (pid : Pid)
  /-- The handler of SIGCHLD begins, reaps one child, and ends. -/
  | signal
  | reap (pid : Pid)
  | handled
  deriving DecidableEq, Repr

namespace Loop

def start (jobs : ℕ) : Loop where
  jobs := jobs
  children := []
  count := 0
  dead := []
  living := []
  exited := []
  pending := false
  handling := false
  point := .look

def goto (s : Loop) (p : Point) : Loop := { s with point := p }

def operate (s : Loop) : Event → Option Loop
  | .look => if s.point = .look then some (s.goto (if s.dead = [] then .room else .bury)) else none
  | .bury =>
    if s.point = .bury then match s.dead with
      | [] => some (s.goto .room)
      | _ :: rest => some { s with dead := rest }
    else none
  | .buryFailed => if s.point = .bury ∧ s.dead ≠ [] then some (s.goto .look) else none
  | .room =>
    if s.point = .room then some (s.goto (if s.count < s.jobs then .currentRun else .sleep)) else none
  | .currentRun found =>
    if s.point = .currentRun then some (s.goto (match found with
      | none => .doze
      | some false => .readyLock
      | some true => .moving))
    else none
  | .moving =>
    if s.point = .moving then some (s.goto (if s.count ≠ 0 then .doze else .fetching)) else none
  | .exec => if s.point = .fetching then some (s.goto .replaced) else none
  | .readyLock found =>
    if s.point = .readyLock then some (s.goto (if found then .fork else .doze)) else none
  | .doze => if s.point = .doze then some (s.goto .look) else none
  | .fork none => if s.point = .fork then some (s.goto .room) else none
  | .fork (some pid) =>
    if s.point = .fork ∧ pid ∉ s.living ++ s.exited then
      some { s with living := pid :: s.living, point := .record pid }
    else none
  | .record => match s.point with
    | .record pid => some { s with
        children := pid :: s.children, count := s.count + 1, point := .unblock }
    | _ => none
  | .unblock => if s.point = .unblock then some (s.goto .room) else none
  | .sleep => if s.point = .sleep then some (s.goto .asleep) else none
  | .failed =>
    if s.point = .currentRun ∨ s.point = .fetching ∨ s.point = .readyLock then some (s.goto .look)
    else none
  | _ => none

/-- A child exits: SIGCHLD is discarded under `DEFAULT`, and else pending. -/
def childExit (s : Loop) (pid : Pid) : Option Loop :=
  if pid ∈ s.living then
    some { s with
      living := s.living.erase pid
      exited := pid :: s.exited
      pending := s.pending || !s.point.isDefault }
  else none

/-- The handler begins; a `sleep` it interrupts is over. -/
def signal (s : Loop) : Option Loop :=
  if s.pending ∧ ¬ s.handling ∧ ¬ s.point.isDefault ∧ ¬ s.point.blocks then
    some { s with
      pending := false
      handling := true
      point := if s.point = .asleep then .look else s.point }
  else none

/-- One round of `while (($pid = waitpid(-1, WNOHANG)) > 0)`. -/
def reap (s : Loop) (pid : Pid) : Option Loop :=
  if s.handling ∧ pid ∈ s.exited then
    if pid ∈ s.children then
      some { s with
        exited := s.exited.erase pid
        children := s.children.erase pid
        count := s.count - 1
        dead := s.dead ++ [pid] }
    else some { s with exited := s.exited.erase pid }
  else none

def next (s : Loop) : Event → Option Loop
  | .exit pid => s.childExit pid
  | .signal => s.signal
  | .reap pid => s.reap pid
  | .handled => if s.handling ∧ s.exited = [] then some { s with handling := false } else none
  | e => if s.handling then none else s.operate e

def Step (s : Loop) (e : Event) (t : Loop) : Prop := s.next e = some t

/-- Nothing is slept through: (a) a blocked daemon has buried its dead and SIGCHLD is
pending for any other; (b) while nothing is pending no child has exited unnoticed. -/
structure Noticed (s : Loop) : Prop where
  asleep : s.point = .asleep →
    s.dead = [] ∧ ∀ pid ∈ s.children, pid ∈ s.exited → s.pending = true
  known : s.pending = false → s.handling = false → ∀ pid ∈ s.children, pid ∉ s.exited

/-- No child exits while SIGCHLD is at `DEFAULT`, nobody is in `@DeadChildren` when all
workers turn out to be busy, and the handler does not run between that and `sleep`. -/
def Timely (s : Loop) : Event → Prop
  | .exit _ => s.point.isDefault = false
  | .room => ¬ s.count < s.jobs → s.dead = []
  | .signal => s.point ≠ .sleep
  | _ => True

/-- What carries `Noticed`: an exited child has its signal or its handler, and on the
way to sleep nobody is dead and no handler runs. -/
structure Watched (s : Loop) : Prop where
  signaled : s.exited ≠ [] → s.pending = true ∨ s.handling = true
  buried : s.point = .sleep ∨ s.point = .asleep → s.dead = [] ∧ s.handling = false

namespace Watched
variable {s t : Loop} {e : Event}

theorem start (jobs : ℕ) : Watched (Loop.start jobs) where
  signaled := fun h => absurd rfl h
  buried := fun h => by rcases h with h | h <;> cases h

theorem noticed (h : Watched s) : Noticed s where
  asleep := by
    intro hp
    obtain ⟨hdead, hquiet⟩ := h.buried (.inr hp)
    refine ⟨hdead, fun pid _ hexited => ?_⟩
    exact (h.signaled (List.ne_nil_of_mem hexited)).resolve_right (by simp [hquiet])
  known := by
    intro hpending hhandling pid _ hexited
    rcases h.signaled (List.ne_nil_of_mem hexited) with hp | hh
    · simp [hpending] at hp
    · simp [hhandling] at hh

theorem goto (h : Watched s) {p : Point} (hs : p ≠ .sleep) (ha : p ≠ .asleep) : Watched (s.goto p) where
  signaled := h.signaled
  buried := fun hp => by rcases hp with hp | hp <;> simp_all [Loop.goto]

theorem operate (h : Watched s) (hstep : s.operate e = some t) (hquiet : s.handling = false)
    (ht : Timely s e) : Watched t := by
  cases e with
  | look =>
    simp only [Loop.operate, Option.ite_none_right_eq_some, Option.some.injEq] at hstep
    obtain ⟨_, rfl⟩ := hstep
    split
    · exact h.goto (by simp) (by simp)
    · exact h.goto (by simp) (by simp)
  | bury =>
    simp only [Loop.operate, Option.ite_none_right_eq_some] at hstep
    obtain ⟨hp, hstep⟩ := hstep
    split at hstep
    · cases hstep
      exact h.goto (by simp) (by simp)
    · cases hstep
      exact ⟨h.signaled, fun hs => by simp [hp] at hs⟩
  | room =>
    simp only [Loop.operate, Option.ite_none_right_eq_some, Option.some.injEq] at hstep
    obtain ⟨_, rfl⟩ := hstep
    split
    · exact h.goto (by simp) (by simp)
    · rename_i hbusy
      exact ⟨h.signaled, fun _ => ⟨ht hbusy, hquiet⟩⟩
  | sleep =>
    simp only [Loop.operate, Option.ite_none_right_eq_some, Option.some.injEq] at hstep
    obtain ⟨hp, rfl⟩ := hstep
    exact ⟨h.signaled, fun _ => h.buried (.inl hp)⟩
  | fork pid =>
    cases pid with
    | none =>
      simp only [Loop.operate, Option.ite_none_right_eq_some, Option.some.injEq] at hstep
      obtain ⟨_, rfl⟩ := hstep
      exact h.goto (by simp) (by simp)
    | some pid =>
      simp only [Loop.operate, Option.ite_none_right_eq_some, Option.some.injEq] at hstep
      obtain ⟨_, rfl⟩ := hstep
      exact ⟨h.signaled, fun hs => by simp at hs⟩
  | record =>
    simp only [Loop.operate] at hstep
    split at hstep
    · cases hstep
      exact ⟨h.signaled, fun hs => by simp at hs⟩
    · cases hstep
  | currentRun found =>
    simp only [Loop.operate, Option.ite_none_right_eq_some, Option.some.injEq] at hstep
    obtain ⟨_, rfl⟩ := hstep
    rcases found with _ | _ | _ <;> exact h.goto (by simp) (by simp)
  | moving | readyLock =>
    simp only [Loop.operate, Option.ite_none_right_eq_some, Option.some.injEq] at hstep
    obtain ⟨_, rfl⟩ := hstep
    split <;> exact h.goto (by simp) (by simp)
  | buryFailed | exec | doze | unblock | failed =>
    simp only [Loop.operate, Option.ite_none_right_eq_some, Option.some.injEq] at hstep
    obtain ⟨_, rfl⟩ := hstep
    exact h.goto (by simp) (by simp)
  | _ => cases hstep

theorem step (h : Watched s) (hstep : Step s e t) (ht : Timely s e) : Watched t := by
  have operated : (∀ pid, e ≠ .exit pid ∧ e ≠ .reap pid) → e ≠ .signal → e ≠ .handled → Watched t := by
    intro h₁ h₂ h₃
    have hop : (if s.handling then none else s.operate e) = some t := by
      cases e <;> first | exact hstep | simp_all
    split at hop
    · cases hop
    · exact h.operate hop (by simp_all) ht
  cases e with
  | exit pid =>
    simp only [Step, next, childExit, Option.ite_none_right_eq_some, Option.some.injEq] at hstep
    obtain ⟨_, rfl⟩ := hstep
    have hdefault : s.point.isDefault = false := ht
    exact ⟨fun _ => by simp [hdefault], h.buried⟩
  | signal =>
    simp only [Step, next, signal, Option.ite_none_right_eq_some, Option.some.injEq] at hstep
    obtain ⟨_, rfl⟩ := hstep
    refine ⟨fun _ => .inr rfl, fun hs => ?_⟩
    -- a handler that begins has woken the daemon, and does not begin right before `sleep`
    exfalso
    have hawake : s.point ≠ .sleep := ht
    dsimp only at hs
    split at hs
    · rcases hs with hs | hs <;> cases hs
    · rcases hs with hs | hs <;> contradiction
  | reap pid =>
    simp only [Step, next, reap, Option.ite_none_right_eq_some] at hstep
    obtain ⟨⟨hhandling, _⟩, hstep⟩ := hstep
    have hpoint : ¬ (s.point = .sleep ∨ s.point = .asleep) := fun hs => by
      have hquiet := (h.buried hs).2
      simp [hhandling] at hquiet
    split at hstep
    · cases hstep
      exact ⟨fun _ => .inr hhandling, fun hs => absurd hs hpoint⟩
    · cases hstep
      exact ⟨fun _ => .inr hhandling, fun hs => absurd hs hpoint⟩
  | handled =>
    simp only [Step, next, Option.ite_none_right_eq_some, Option.some.injEq] at hstep
    obtain ⟨⟨_, hnone⟩, rfl⟩ := hstep
    exact ⟨fun he => absurd hnone he, fun hs => ⟨(h.buried hs).1, rfl⟩⟩
  | _ => exact operated (by simp) (by simp) (by simp)

end Watched

/-- In a run whose signals come timely no exit is lost. -/
theorem exits_noticed {jobs : ℕ} {h : List (Loop × Event)} {s : Loop}
    (run : Run Step (start jobs) h s) (all : AllSteps Timely h) : Noticed s :=
  (run.invariant Watched all (.start jobs) fun _ _ _ hw hstep ht => hw.step hstep ht).noticed

def busy : List Event :=
  [.look, .room, .currentRun (some false), .readyLock true, .fork (some 10), .record, .unblock, .room]

instance (s : Loop) (e : Event) : Decidable (Timely s e) := by
  cases e <;> unfold Timely <;> infer_instance

/-- A worker exits while the daemon sleeps, and is buried before the next sleep. -/
theorem late_exit_noticed : ∃ h s, Run Step (start 1) h s ∧ s.dead = [10] ∧ Noticed s := by
  obtain ⟨h, s, run, hf⟩ := reached_of_history next (s := start 1)
    (w := busy ++ [.sleep, .exit 10, .signal, .reap 10, .handled])
    (f := fun x => decide (x.2.dead = [10]) && x.1.all fun y => decide (Timely y.1 y.2)) (by decide)
  simp only [Bool.and_eq_true, List.all_eq_true, decide_eq_true_eq] at hf
  exact ⟨h, s, run, hf.1, exits_noticed run hf.2⟩

/-- The handler runs right before `sleep`, and the daemon sleeps on a corpse; or the
worker exits while SIGCHLD is at `DEFAULT`, and nobody hears of it. -/
theorem early_exit_unnoticed :
    (∃ h s, Run Step (start 1) h s ∧ s.point = .asleep ∧ s.dead = [10]) ∧
    ∃ h s, Run Step (start 2) h s ∧ s.pending = false ∧ s.handling = false ∧
      s.point = .doze ∧ 10 ∈ s.children ∧ 10 ∈ s.exited := by
  constructor
  · obtain ⟨h, s, run, hf⟩ := reached_of_history next (s := start 1)
      (w := busy ++ [.exit 10, .signal, .reap 10, .handled, .sleep])
      (f := fun x => decide (x.2.point = .asleep) && decide (x.2.dead = [10])) (by decide)
    simp only [Bool.and_eq_true, decide_eq_true_eq] at hf
    exact ⟨h, s, run, hf.1, hf.2⟩
  · obtain ⟨h, s, run, hf⟩ := reached_of_history next (s := start 2)
      (w := busy ++ [.currentRun (some true), .exit 10, .moving])
      (f := fun x => decide (x.2.pending = false) && decide (x.2.handling = false) &&
        decide (x.2.point = .doze) && decide (10 ∈ x.2.children) && decide (10 ∈ x.2.exited)) (by decide)
    simp only [Bool.and_eq_true, decide_eq_true_eq] at hf
    obtain ⟨⟨⟨⟨h₁, h₂⟩, h₃⟩, h₄⟩, h₅⟩ := hf
    exact ⟨h, s, run, h₁, h₂, h₃, h₄, h₅⟩

end Loop
end Mports.MagusSignals
