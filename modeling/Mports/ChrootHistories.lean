import Mports.ChrootContents
import Mports.LabelledRuns

set_option autoImplicit false

namespace Mports.ChrootHistories
open StatementPrograms ProgramRuns ChrootScript ChrootWorld ChrootMarkers ChrootContents LabelledRuns

variable {B : Bootstraps}

section Histories

/-- Whether there is an object, and whether something is built with it. -/
inductive Phase where
  | idle | ready | building
  deriving DecidableEq, Repr

inductive Call where
  | new (refreshSnapshot : Bool)
  | markDirty
  | markDead
  | delete
  deriving DecidableEq, Repr

inductive Outcome where
  | returned
  | died
  | killed
  | torn
  /-- Killed in the middle of a removal that leaves what passes for the whole. -/
  | halfRemoved
  deriving DecidableEq, Repr

variable (B) in
inductive Event where
  | replace (tarball : B.Tarball)
  | ports (makefile : Bool)
  | call (c : Call) (outcome : Outcome)
  | write (files : List (String × String))

variable (B) in
structure System extends World B where
  phase : Phase

def Call.config (config : Config) : Call → Config
  | new refreshSnapshot => { config with refreshSnapshot := refreshSnapshot }
  | _ => config

def Call.perform (config : Config) (c : Call) : Perl Unit :=
  match c with
  | new _ => do
    let _ ← ChrootScript.new (c.config config)
  | markDirty => ChrootScript.markDirty
  | markDead => ChrootScript.markDead
  | delete => ChrootScript.delete config.chroot

/-- A dead process has no object. Writes come after a `mark_dirty`. -/
def Call.after (c : Call) (phase : Phase) (outcome : Outcome) : Phase :=
  match outcome with
  | .returned => match c with
    | new _ | delete => .ready
    | markDirty => .building
    | markDead => phase
  | .died => match c with
    | new _ => .idle
    | delete => .ready
    | markDirty | markDead => phase
  | _ => .idle

def Left (self : Chroot) (p : Perl Unit) (w : World B) : Outcome → World B → Prop
  | .returned, u => Runs (Answered self) p w (.ret ()) u
  | .died, u => ∃ message, Runs (Answered self) p w (.raise message) u
  | .killed, u => ∃ q, Runs (Answered self) p w q u
  | .torn, u => ∃ o k v, Runs (Answered self) p w (.call o k) v ∧ Torn v o u ∧ Told u o
  | .halfRemoved, u => ∃ o k v, Runs (Answered self) p w (.call o k) v ∧ Torn v o u ∧ ¬ Told u o

inductive Step (config : Config) : System B → Event B → System B → Prop where
  | replace (s : System B) (tarball : B.Tarball) : Step config s (.replace tarball) { s with tarball := tarball }
  | ports (s : System B) (makefile : Bool) : Step config s (.ports makefile) { s with portsMakefile := makefile }
  | call {s : System B} {c : Call} {outcome : Outcome} {u : World B}
      (hobject : s.phase ≠ .idle ∨ ∃ refreshSnapshot, c = .new refreshSnapshot)
      (left : Left (c.config config).chroot (c.perform config) s.toWorld outcome u) :
      Step config s (.call c outcome) ⟨u, c.after s.phase outcome⟩
  | write {s : System B} (hbuilding : s.phase = .building) (files : List (String × String)) :
      Step config s (.write files) { s with toTrees := s.modify .root fun X => { X with files := files } }

def first (tarball : B.Tarball) (makefile : Bool) : System B where
  tarball := tarball
  refdir := none
  base := none
  overlay := none
  snapshot := none
  branch := false
  disk := false
  mounts := fun _ => 0
  portsMakefile := makefile
  phase := .idle

def Call.executed (config : Config) (c : Call) (w : World B) : Exit chroot Unit × World B :=
  exec (World.act (c.config config).chroot) (c.perform config) w

def System.after (s : System B) (config : Config) (c : Call) : System B :=
  ⟨(c.executed config s.toWorld).2, c.after s.phase .returned⟩

theorem System.step_after {s : System B} {config : Config} {c : Call}
    (hobject : s.phase ≠ .idle ∨ ∃ refreshSnapshot, c = .new refreshSnapshot)
    (h : returned (c.executed config s.toWorld).1 = true) :
    Step config s (.call c .returned) (s.after config c) := by
  have hanswers : ∀ (w : World B) (o : chroot.Op), Answered (c.config config).chroot w o
      (w.act (c.config config).chroot o).1 (w.act (c.config config).chroot o).2 := fun _ _ => .inl rfl
  obtain ⟨_, hrun⟩ := runs_exec hanswers (c.perform config) s.toWorld h
  exact .call hobject hrun

end Histories

section Invariant
variable {config : Config} {self : Chroot}

theorem runs_kept {Q : Unit → World B → Prop} {R : String → World B → Prop} {p q : Perl Unit} {w u : World B}
    (h : Outline (setting B self) (Ends Q R fun _ _ => True) p w) (hQ : ∀ a w, Q a w → Kept w.toTrees)
    (hR : ∀ e w, R e w → Kept w.toTrees) (hrun : Runs (Answered self) p w q u) : Kept u.toTrees := by
  have hq := hrun.outline h
  cases q with
  | ret a => exact hQ a u hq.ended_ret
  | raise e => exact hR e u (hq u rfl)
  | exit c => cases c
  | call o k => exact hq.needs.1

theorem Left.kept {Q : Unit → World B → Prop} {R : String → World B → Prop} {p : Perl Unit} {w u : World B}
    {outcome : Outcome} (left : Left self p w outcome u)
    (h : Outline (setting B self) (Ends Q R fun _ _ => True) p w) (hQ : ∀ a w, Q a w → Kept w.toTrees)
    (hR : ∀ e w, R e w → Kept w.toTrees) (hwhole : outcome ≠ .halfRemoved) : Kept u.toTrees := by
  cases outcome with
  | returned => exact runs_kept h hQ hR left
  | died =>
    obtain ⟨message, hrun⟩ := left
    exact runs_kept h hQ hR hrun
  | killed =>
    obtain ⟨q, hrun⟩ := left
    exact runs_kept h hQ hR hrun
  | torn =>
    obtain ⟨o, k, v, hrun, htorn, htold⟩ := left
    exact (hrun.needed h).2 u htorn htold
  | halfRemoved => exact absurd rfl hwhole

structure Truthful (s : System B) : Prop where
  kept : Kept s.toTrees
  unclean : s.phase = .building → Unclean s.toTrees

def Sound (config : Config) (s : System B) : Event B → Prop
  | .call c outcome => outcome ≠ .halfRemoved ∧
      ∀ refreshSnapshot, c = .new refreshSnapshot → outcome = .returned → Fresh (c.config config) s.toTrees
  | _ => True

theorem first_truthful (tarball : B.Tarball) (makefile : Bool) : Truthful (first tarball makefile) := by
  refine ⟨⟨?_, ?_, ?_, ?_⟩, fun h => by cases h⟩
  all_goals
    intro X hX
    cases hX

theorem perform_new_outline {refresh : Bool} {w : World B} (hw : Kept w.toTrees) :
    Outline (setting B ((Call.new refresh).config config).chroot)
      (Leaves fun _ => Prepared ((Call.new refresh).config config) w.toTrees)
      ((Call.new refresh).perform config) w :=
  (new_outline hw).seq fun _ _ hv => outline_ret hv

theorem marked_truthful {m other : Marker} (hother : other ≠ .clean) (hm : m ≠ .clean) {s : System B} {u : World B}
    {c : Call} {outcome : Outcome} (hs : Truthful s) (hwhole : outcome ≠ .halfRemoved)
    (left : Left self (do
        ask (.unlink (.marker .root .clean))
        ask (.unlink (.marker .root other))
        ask (.touchfile (.marker .root m))) s.toWorld outcome u) :
    Truthful (⟨u, c.after s.phase outcome⟩ : System B) := by
  have houtline : Outline (setting B self) _ _ s.toWorld := mark_outline hother hm hs.kept
  refine ⟨left.kept houtline (fun _ _ h => h.kept) (fun _ _ h => h.kept) hwhole, fun hbuilding => ?_⟩
  cases outcome with
  | returned => exact (left.returned houtline).unclean
  | died =>
    obtain ⟨message, hrun⟩ := left
    exact (hrun.outline houtline u rfl).unclean
  | killed | torn | halfRemoved => cases hbuilding

theorem step_truthful {s t : System B} {e : Event B} (hs : Truthful s) (hstep : Step config s e t)
    (hsound : Sound config s e) : Truthful t := by
  cases hstep with
  | replace tarball => exact ⟨⟨hs.kept.refdir, hs.kept.base, hs.kept.overlay, hs.kept.snapshot⟩, hs.unclean⟩
  | ports makefile => exact ⟨hs.kept, hs.unclean⟩
  | write hbuilding files =>
    have hunclean : Unclean (s.modify .root fun X => { X with files := files }) :=
      .modify fun X hX => hs.unclean hbuilding X hX
    exact ⟨hs.kept.modify hunclean, fun _ => hunclean⟩
  | @call c outcome u hobject left =>
    obtain ⟨hwhole, _⟩ := hsound
    cases c with
    | new refresh =>
      refine ⟨left.kept (perform_new_outline hs.kept) (fun _ _ h => h.kept) (fun _ _ h => h) hwhole, fun h => ?_⟩
      cases outcome <;> cases h
    | markDirty => exact marked_truthful (by decide) (by decide) hs hwhole left
    | markDead => exact marked_truthful (by decide) (by decide) hs hwhole left
    | delete =>
      refine ⟨left.kept (delete_outline hs.kept) (fun _ _ h => h) (fun _ _ h => h) hwhole, fun h => ?_⟩
      cases outcome <;> cases h

theorem run_truthful {tarball : B.Tarball} {makefile : Bool} {h : List (System B × Event B)} {s : System B}
    (run : Run (Step config) (first tarball makefile) h s) (all : AllSteps (Sound config) h) : Truthful s :=
  run.invariant Truthful all (first_truthful _ _) fun _ _ _ hs hstep hsound => step_truthful hs hstep hsound

/-- Where every step is sound, a root that `new` has returned is what the tarball makes of it. -/
theorem prepared_current (config : Config) (tarball : B.Tarball) (makefile : Bool) (h : List (System B × Event B))
    (s t : System B) (refreshSnapshot : Bool)
    (run : Run (Step config) (first tarball makefile) ((s, .call (.new refreshSnapshot) .returned) :: h) t)
    (all : AllSteps (Sound config) ((s, .call (.new refreshSnapshot) .returned) :: h)) :
    t.view = some (reference t.tarball) := by
  obtain ⟨hlast, hbefore⟩ := (allSteps_cons _ _ _).1 all
  cases run with
  | next run last =>
    cases last with
    | call hobject left =>
      have hs := run_truthful run hbefore
      have hprepared : Prepared _ s.toTrees _ := left.returned (perform_new_outline hs.kept)
      rw [hprepared.tarball]
      exact hprepared.current (hlast.2 refreshSnapshot rfl rfl)

end Invariant

section Releases

def twoReleases : Bootstraps where
  Tarball := Bool
  sum later := if later then "b2" else "a1"
  files later := [("/etc/motd", if later then "3.2" else "3.1")]
  sum_ne := by decide
  files_of_sum := by decide

def zfsConfig : Config where
  prefixDir := "/magus"
  branch := "3.2"
  zfs := true
  zfsDatasetRoot := "magus/chroots"
  loopbacks := [("/usr/mports", "/usr/mports"), ("/usr/src", "/usr/src")]
  tarball := "/magus/root.tgz"

def baseline : System twoReleases := (first false true).after zfsConfig (.new true)

def baselineDirty : System twoReleases := baseline.after zfsConfig .markDirty

def baselineOld : System twoReleases := { baselineDirty with tarball := true }

theorem baseline_step : Step zfsConfig (first (B := twoReleases) false true) (.call (.new true) .returned) baseline :=
  System.step_after (.inr ⟨true, rfl⟩) (by decide +kernel)

theorem baselineDirty_step : Step zfsConfig baseline (.call .markDirty .returned) baselineDirty :=
  System.step_after (.inl (by decide)) (by decide +kernel)

theorem prepared_current_rolled : (baselineDirty.after zfsConfig (.new false)).view =
    some (reference (baselineDirty.after zfsConfig (.new false)).tarball) := by
  have hstep : Step zfsConfig baselineDirty (.call (.new false) .returned) (baselineDirty.after zfsConfig (.new false)) :=
    System.step_after (.inr ⟨false, rfl⟩) (by decide +kernel)
  refine prepared_current zfsConfig false true _ baselineDirty _ false
    (.next (.next (.next .start baseline_step) baselineDirty_step) hstep) ?_
  have hsum : (baselineDirty.snapshot.all fun S => S.checksum.map chomp = some "a1") = true := by decide +kernel
  simp only [allSteps_cons, allSteps_nil, and_true]
  refine ⟨⟨by decide, fun _ _ _ _ _ X S _ _ hS => ?_⟩, ⟨by decide, fun _ h => by cases h⟩, by decide, ?_⟩
  · rw [hS] at hsum
    exact of_decide_eq_true hsum
  · rintro refreshSnapshot hnew _ _ hrefresh
    cases hnew
    cases hrefresh

/-- A dirty root is rolled back to what it was before the tarball was replaced. -/
theorem rolled_back_behind : ∃ h s t,
    Run (Step zfsConfig) (first (B := twoReleases) false true) ((s, .call (.new false) .returned) :: h) t ∧
      (∀ x ∈ h, ∀ c outcome, x.2 = .call c outcome → outcome = .returned) ∧
      t.view ≠ some (reference t.tarball) := by
  have hstep : Step zfsConfig baselineOld (.call (.new false) .returned) (baselineOld.after zfsConfig (.new false)) :=
    System.step_after (.inr ⟨false, rfl⟩) (by decide +kernel)
  refine ⟨_, _, _, .next (.next (.next (.next .start baseline_step) baselineDirty_step) (.replace _ true)) hstep,
    ?_, by decide +kernel⟩
  intro x hx c outcome hcall
  simp only [List.mem_cons, List.not_mem_nil, or_false] at hx
  rcases hx with rfl | rfl | rfl <;> cases hcall <;> rfl

end Releases
end Mports.ChrootHistories
