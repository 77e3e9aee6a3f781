import Mports.ChrootHistories
import Mports.ChrootNames
import Mports.ChrootReplies

set_option autoImplicit false

namespace Mports.ChrootRecovery
open PerlText StatementPrograms ProgramRuns ChrootScript ChrootWorld ChrootMarkers ChrootHistories ChrootNames ChrootReplies
open LabelledRuns

variable {B : Bootstraps}

section Cpdup
variable {self : Chroot} {w : World B}

/-- What `_init_cpdup` takes for a broken loopback. -/
def Broken (w : World B) : Prop :=
  w.isDir (.top .root) = true ∧ w.fileExists (.below .root "/usr/mports/Makefile") = false

def Matching (w : World B) : Prop :=
  w.fileExists (.marker .root .clean) = true ∧
    (w.firstLine (.marker .root .checksum)).map chomp = some (B.sum w.tarball)

def Marked (w : World B) : Prop :=
  w.fileExists (.marker .root .clean) = true ∨ w.fileExists (.marker .root .dirty) = true ∨
    w.fileExists (.marker .root .dead) = true

instance : Decidable (Broken w) := inferInstanceAs (Decidable (_ ∧ _))

instance : Decidable (Matching w) := inferInstanceAs (Decidable (_ ∧ _))

instance : Decidable (Marked w) := inferInstanceAs (Decidable (_ ∨ _ ∨ _))

/-- When cpdup recovers a root: it mounts everything once more on one that has no markers. -/
def CpdupRecoverable (self : Chroot) (w : World B) : Prop :=
  if Broken w ∨ Marked w ∧ ¬ Matching w then Most self w
  else if Matching w then Each self 1 w
  else Each self 0 w

instance : Decidable (CpdupRecoverable self w) := inferInstanceAs <| Decidable <|
  if Broken w ∨ Marked w ∧ ¬ Matching w then Most self w
  else if Matching w then Each self 1 w
  else Each self 0 w

theorem attains_mounted (hapart : Apart self) :
    Attains (reply self) (fun _ => Each self 1) (mountLoopbacks self) w ↔ Each self 0 w :=
  attains_mountLoopbacks.trans (each_of_raised hapart)

theorem attains_syncReferenceDir (self : Chroot) (hrefdir : w.refdir.isSome = true) : ∃ R, ∀ Q : Unit → World B → Prop,
    Attains (reply self) Q syncReferenceDir w ↔ Q () { w with toTrees := w.setView R } := by
  obtain ⟨R, hR⟩ := Option.isSome_iff_exists.1 hrefdir
  have hrun : w.run self .cpdup = (0, { w with toTrees := w.setView R }) := by simp only [World.run, hR]
  refine ⟨R, fun Q => attains_runOr.trans ?_⟩
  rw [hrun]
  exact and_iff_right rfl

theorem attains_filled (hapart : Apart self) (hrefdir : w.refdir.isSome = true) :
    Attains (reply self) (fun _ => Each self 1) (do syncReferenceDir; mountLoopbacks self) w ↔ Each self 0 w := by
  obtain ⟨R, hsync⟩ := attains_syncReferenceDir self hrefdir
  exact attains_bind.trans ((hsync _).trans (attains_mounted hapart))

theorem attains_fillRoot (hapart : Apart self) (hdisk : self.memoryDisk = false) (hrefdir : w.refdir.isSome = true) :
    Attains (reply self) (fun _ => Each self 1) (fillRoot self) w ↔ Each self 0 w := by
  have hmkpath : ∀ {Q : Unit → World B → Prop}, Attains (reply self) Q (ask (.mkpath (.top .root))) w ↔
      Q () (if w.overlay.isSome then w else { w with base := some (w.base.getD .empty) }) := Iff.rfl
  refine attains_bind.trans (hmkpath.trans ?_)
  rw [attains_bind, attains_when, if_neg (by simp [hdisk])]
  split
  · exact attains_filled hapart hrefdir
  · exact attains_filled hapart hrefdir

theorem attains_clean (hapart : Apart self) (hzfs : self.zfs = false) (hrefdir : w.refdir.isSome = true) :
    Attains (reply self) (fun _ => Each self 1) (ChrootScript.clean self) w ↔ Most self w := by
  have hlowered : (lowered w (unmounted self)).refdir.isSome = true := hrefdir
  have hrest : Attains (reply self) (fun _ => Each self 1) (do
      clearFlagsPath (.below .root "/")
      syncReferenceDir
      mountLoopbacks self) (lowered w (unmounted self)) ↔ Each self 0 (lowered w (unmounted self)) ∧ True := by
    rw [attains_bind, attains_clearFlagsPath, attains_filled hapart hlowered, and_true]
  have hstrict := attains_strict hapart hrest
  rw [and_true] at hstrict
  simp only [ChrootScript.clean, hzfs]
  exact hstrict

theorem attains_delete (hzfs : self.zfs = false) (hdisk : self.memoryDisk = false) (hview : w.view.isSome = true)
    {Q : Unit → World B → Prop} :
    Attains (reply self) Q (delete self) w ↔ Q () ((lowered w (unmounted self)).rmtree self .root) := by
  have hrmtree : ∀ {v : World B} {Q : ℕ → World B → Prop}, v.view.isSome = true →
      (Attains (reply self) Q (rmtree (.top .root)) v ↔ Q 1 (v.rmtree self .root)) := by
    intro v Q hv
    change Q (if v.view.isSome then 1 else 0) _ ↔ _
    rw [hv]
    exact Iff.rfl
  have hlowered : (lowered w (unmounted self)).view.isSome = true := hview
  simp only [delete, hzfs, hdisk]
  refine attains_bind.trans ((attains_unmountLoopbacks false).trans ?_)
  refine (and_iff_right (fun h => by cases h)).trans (attains_bind.trans (attains_clearFlagsPath.trans ?_))
  exact attains_bind.trans ((hrmtree hlowered).trans attains_when)

structure Removed (v u : World B) : Prop where
  mounts : u.mounts = v.mounts
  tarball : u.tarball = v.tarball
  refdir : u.refdir = v.refdir
  view : ∀ X, u.view = some X → X = .empty

theorem rmtree_removed (self : Chroot) (v : World B) : Removed v (v.rmtree self .root) := by
  simp only [World.rmtree]
  split
  · refine ⟨rfl, rfl, rfl, fun X hX => ?_⟩
    exact (Option.some.inj hX).symm
  · rename_i hoverlay
    have hnone : v.overlay = none := Option.not_isSome_iff_eq_none.1 hoverlay
    split
    · refine ⟨rfl, rfl, rfl, fun X hX => ?_⟩
      change v.overlay.or none = some X at hX
      rw [hnone] at hX
      cases hX
    · refine ⟨rfl, rfl, rfl, fun X hX => ?_⟩
      change v.overlay.or (v.base.map fun _ => Tree.empty) = some X at hX
      rw [hnone, Option.none_or] at hX
      obtain ⟨_, _, rfl⟩ := Option.map_eq_some_iff.1 hX
      rfl

theorem Removed.unmarked {v u : World B} (h : Removed v u) : ¬ Marked u ∧ ¬ Matching u := by
  have hmarker : ∀ m, u.fileExists (.marker .root m) = false := by
    intro m
    refine Bool.eq_false_iff.2 fun hm => ?_
    obtain ⟨X, hX, hmarked⟩ := (Option.any_eq_true _ _).1 hm
    rw [h.view X hX] at hmarked
    cases m <;> cases hmarked
  constructor
  · simp [Marked, hmarker]
  · simp [Matching, hmarker]

theorem attains_refill (hapart : Apart self) (hzfs : self.zfs = false) (hdisk : self.memoryDisk = false)
    (hrefdir : w.refdir.isSome = true) (hview : w.view.isSome = true) :
    Attains (reply self) (fun _ => Each self 1) (do delete self; fillRoot self) w ↔ Most self w := by
  have hremoved := rmtree_removed self (lowered w (unmounted self))
  rw [attains_bind, attains_delete hzfs hdisk hview, attains_fillRoot hapart hdisk (hremoved.refdir ▸ hrefdir),
    ← each_of_lowered hapart]
  simp only [Each, hremoved.mounts]

theorem isSome_of_marked (h : Marked w) : w.view.isSome = true := by
  rcases h with h | h | h
  all_goals
    obtain ⟨X, hX, _⟩ := (Option.any_eq_true _ _).1 h
    change w.view = some X at hX
    rw [hX]
    rfl

theorem attains_renewRoot (hapart : Apart self) (hzfs : self.zfs = false) (hdisk : self.memoryDisk = false)
    (hrefdir : w.refdir.isSome = true) :
    Attains (reply self) (fun _ => Each self 1) (renewRoot self) w ↔
      if Marked w then Most self w else Each self 0 w := by
  refine attains_bind.trans (attains_fileExists.trans (attains_bind.trans (attains_when.trans ?_)))
  split
  · rename_i hclean
    rw [if_pos (.inl hclean)]
    obtain ⟨X, hX, _⟩ := (Option.any_eq_true _ _).1 hclean
    change w.view = some X at hX
    -- the marker that is put there is the one that is asked for next
    let v : World B := { w with toTrees := (w.modify .root (·.unlink .clean)).modify .root (·.touch .dirty) }
    have hview : v.view = some ((X.unlink .clean).touch .dirty) := by
      change ((w.modify .root (·.unlink .clean)).modify .root (·.touch .dirty)).view = _
      rw [modify_root_view, modify_root_view, hX]
      rfl
    have hdirty : v.fileExists (.marker .root .dirty) = true := by
      change v.view.any _ = true
      rw [hview]
      rfl
    have hmarks : ∀ {Q : Unit → World B → Prop}, Attains (reply self) Q (do
        ask (.unlink (.marker .root .clean))
        ask (.touchfile (.marker .root .dirty))) w ↔ Q () v := by
      intro Q
      let u : World B := { w with toTrees := w.modify .root (·.unlink .clean) }
      have hsome : u.view.isSome = true := by
        change (w.modify .root (·.unlink .clean)).view.isSome = true
        rw [modify_root_view, hX]
        rfl
      have hopened : (reply self u (.touchfile (.marker .root .dirty))).1 = .ok () := if_pos hsome
      have hunlink : ∀ {R : Unit → World B → Prop},
          Attains (reply self) R (ask (.unlink (.marker .root .clean))) w ↔ R () u := Iff.rfl
      exact attains_bind.trans (hunlink.trans (attains_issue (S := chroot) (o := .touchfile (.marker .root .dirty)) hopened))
    have hv : v.refdir.isSome = true := by simpa [v] using hrefdir
    rw [hmarks, attains_bind, attains_fileExists, if_pos hdirty]
    exact attains_clean hapart hzfs hv
  · rename_i hclean
    rw [attains_bind, attains_fileExists]
    split
    · rename_i hdirty
      rw [if_pos (.inr (.inl hdirty))]
      exact attains_clean hapart hzfs hrefdir
    · rename_i hdirty
      rw [attains_bind, attains_fileExists, attains_bind, attains_when]
      split
      · rename_i hdead
        have hmarked : Marked w := .inr (.inr hdead)
        rw [if_pos hmarked, ← attains_bind]
        exact attains_refill hapart hzfs hdisk hrefdir (isSome_of_marked hmarked)
      · rename_i hdead
        have hmarked : ¬ Marked w := fun h => h.elim hclean fun h => h.elim hdirty hdead
        rw [if_neg hmarked]
        exact attains_fillRoot hapart hdisk hrefdir

theorem attains_cleanAndMatches {Q : Bool → World B → Prop} :
    Attains (reply self) Q (cleanAndMatches (B.sum w.tarball)) w ↔ Q (decide (Matching w)) w := by
  have hline : ∀ {Q : Option String → World B → Prop}, Attains (reply self) Q (firstLine (.marker .root .checksum)) w ↔
      Q (w.firstLine (.marker .root .checksum)) w := Iff.rfl
  rw [cleanAndMatches, attains_bind, attains_fileExists]
  split
  · rename_i hclean
    rw [rootMatchesReference, attains_bind, hline, attains_pure]
    simp only [Matching, hclean, true_and]
  · rename_i hclean
    rw [attains_pure, decide_eq_false fun h : Matching w => hclean h.1]

theorem attains_reuseRoot (hapart : Apart self) (hzfs : self.zfs = false) (hdisk : self.memoryDisk = false)
    (hrefdir : w.refdir.isSome = true) :
    Attains (reply self) (fun _ => Each self 1) (reuseRoot self (B.sum w.tarball)) w ↔
      if Matching w then Each self 1 w else if Marked w then Most self w else Each self 0 w := by
  rw [reuseRoot, attains_bind, attains_cleanAndMatches, attains_when]
  by_cases hmatching : Matching w
  · rw [if_pos hmatching, decide_eq_true hmatching, if_neg (by decide)]
  · rw [if_neg hmatching, decide_eq_false hmatching, if_pos rfl]
    exact attains_renewRoot hapart hzfs hdisk hrefdir

theorem attains_loopbackBroken {Q : Bool → World B → Prop} :
    Attains (reply self) Q loopbackBroken w ↔ Q (decide (Broken w)) w := by
  have hisDir : ∀ {Q : Bool → World B → Prop},
      Attains (reply self) Q (isDir (.top .root)) w ↔ Q (w.isDir (.top .root)) w := Iff.rfl
  rw [loopbackBroken, attains_bind, hisDir]
  split
  · rename_i hdir
    rw [attains_bind, attains_fileExists, attains_pure]
    simp only [Broken, hdir, true_and]
    cases w.fileExists (.below .root "/usr/mports/Makefile") <;> exact Iff.rfl
  · rename_i hdir
    rw [attains_pure, decide_eq_false fun h : Broken w => hdir h.1]

theorem attains_initCpdup (hapart : Apart self) (hzfs : self.zfs = false) (hdisk : self.memoryDisk = false)
    (hrefdir : w.refdir.isSome = true) :
    Attains (reply self) (fun _ => Each self 1) (initCpdup self (B.sum w.tarball)) w ↔ CpdupRecoverable self w := by
  rw [initCpdup, attains_bind, attains_loopbackBroken, attains_bind, attains_when, CpdupRecoverable]
  by_cases hbroken : Broken w
  · rw [decide_eq_true hbroken, if_pos rfl, if_pos (.inl hbroken), attains_delete hzfs hdisk hbroken.1]
    have hremoved := rmtree_removed self (lowered w (unmounted self))
    have htarball : w.tarball = ((lowered w (unmounted self)).rmtree self .root).tarball := hremoved.tarball.symm
    rw [htarball, attains_reuseRoot hapart hzfs hdisk (hremoved.refdir ▸ hrefdir), if_neg hremoved.unmarked.2,
      if_neg hremoved.unmarked.1, ← each_of_lowered hapart]
    simp only [Each, hremoved.mounts]
  · rw [decide_eq_false hbroken, if_neg (by decide), attains_reuseRoot hapart hzfs hdisk hrefdir]
    by_cases hmatching : Matching w
    · have hold : ¬ (Broken w ∨ Marked w ∧ ¬ Matching w) := fun h => h.elim hbroken fun h => h.2 hmatching
      rw [if_pos hmatching, if_neg hold, if_pos hmatching]
    · rw [if_neg hmatching]
      by_cases hmarked : Marked w
      · rw [if_pos hmarked, if_pos (.inr ⟨hmarked, hmatching⟩)]
      · have hold : ¬ (Broken w ∨ Marked w ∧ ¬ Matching w) := fun h => h.elim hbroken fun h => hmarked h.1
        rw [if_neg hmarked, if_neg hold, if_neg hmatching]

end Cpdup

section Zfs
variable {self : Chroot} {w : World B}

theorem attains_zfsDatasetExists {dataset : Dataset} {Q : Bool → World B → Prop} :
    Attains (reply self) Q (zfsDatasetExists self dataset) w ↔ Q (w.datasetExists dataset) w := by
  rw [zfsDatasetExists, attains_bind, attains_capture]
  cases hexists : w.datasetExists dataset with
  | true =>
    have hcaptured : w.captured self (.zfsList dataset) = (0, dataset.text self.toConfig ++ "\n") := if_pos hexists
    rw [hcaptured, attains_pure, chomp_line]
    simp only [decide_true, Bool.and_self]
  | false =>
    have hcaptured : w.captured self (.zfsList dataset) = (1, "") := if_neg (by simp [hexists])
    rw [hcaptured, attains_pure]
    exact Iff.rfl

theorem attains_zfsGet {property value : String} {dataset : Dataset} {Q : String → World B → Prop}
    (hvalue : (w.captured self (.zfsGet property dataset)) = (0, value ++ "\n")) :
    Attains (reply self) Q (zfsGet self property dataset) w ↔ Q value w := by
  rw [zfsGet, attains_bind, attains_capture, hvalue]
  change Attains (reply self) Q (if (0 : ℕ) ≠ 0 then _ else _) w ↔ _
  rw [if_neg (by decide), attains_pure, chomp_line]

theorem attains_assertZfsOwned {dataset : Dataset} {Q : Unit → World B → Prop} :
    Attains (reply self) Q (assertZfsOwned self dataset) w ↔ Q () w := by
  have hcaptured : w.captured self (.zfsOwnership dataset) = (0, "1\tlocal\n") := rfl
  have howned : ¬ owned "1\tlocal\n" = false := by decide +kernel
  rw [assertZfsOwned, attains_bind, attains_capture, hcaptured, attains_bind, attains_unless (by decide),
    attains_unless howned]

theorem attains_assertZfsWorkerDataset {Q : Unit → World B → Prop} :
    Attains (reply self) Q (assertZfsWorkerDataset self) w ↔ Q () w := by
  have hmountpoint : w.captured self (.zfsGet "mountpoint" .worker) = (0, self.root ++ "\n") := rfl
  have hmounted : w.captured self (.zfsGet "mounted" .worker) = (0, "yes" ++ "\n") := rfl
  rw [assertZfsWorkerDataset, attains_bind, attains_assertZfsOwned, attains_bind, attains_zfsGet hmountpoint,
    attains_bind, attains_unless (not_not.2 rfl), attains_bind, attains_zfsGet hmounted, attains_when,
    if_neg (not_not.2 rfl)]

theorem attains_ensureZfsHierarchy {Q : Unit → World B → Prop} :
    Attains (reply self) Q (ensureZfsHierarchy self) w ↔ Q () { w with branch := true } := by
  have hmkpath : ∀ {v : World B} {Q : Unit → World B → Prop},
      Attains (reply self) Q (ask (.mkpath .branchDir)) v ↔ Q () v := Iff.rfl
  rw [ensureZfsHierarchy, attains_bind, attains_zfsDatasetExists, attains_bind, attains_unless (by simp [World.datasetExists]),
    attains_bind, attains_zfsDatasetExists]
  split
  · rename_i hbranch
    have hw : { w with branch := true } = w := by
      have htrue : w.branch = true := hbranch
      rw [← htrue]
    have hmountpoint : w.captured self (.zfsGet "mountpoint" .branch) = (0, "none" ++ "\n") := rfl
    have hcanmount : w.captured self (.zfsGet "canmount" .branch) = (0, "off" ++ "\n") := rfl
    refine attains_bind.trans ?_
    rw [assertZfsBranchDataset, attains_bind, attains_assertZfsOwned, attains_bind, attains_zfsGet hmountpoint,
      attains_bind, attains_zfsGet hcanmount, attains_unless (by decide), hw]
    exact hmkpath
  · refine attains_bind.trans (attains_runOr.trans ?_)
    exact (and_iff_right rfl).trans hmkpath

def Hollow (w : World B) : Prop := w.base.getD .empty = .empty

instance : Decidable (Hollow w) := inferInstanceAs (Decidable (_ = _))

/-- A dataset that is not there can be created, filled and kept in a snapshot. -/
def Creatable (self : Chroot) (w : World B) : Prop := Hollow w ∧ w.snapshot = none ∧ Each self 0 w

instance : Decidable (Creatable self w) := inferInstanceAs (Decidable (_ ∧ _ ∧ _))

theorem attains_createZfsSnapshot {Q : Unit → World B → Prop} (hoverlay : w.overlay.isSome = true) :
    Attains (reply self) Q (createZfsSnapshot self) w ↔ w.snapshot = none ∧ Q () { w with snapshot := w.overlay } := by
  have htaken : w.datasetExists .snapshot = w.snapshot.isSome := rfl
  rw [createZfsSnapshot, attains_bind, attains_zfsDatasetExists, attains_bind, htaken, attains_when]
  cases hsnapshot : w.snapshot with
  | some S => exact ⟨False.elim, fun h => by cases h.1⟩
  | none =>
    have hrun : w.run self (.zfsSnapshot .snapshot) = (0, { w with snapshot := w.overlay }) := by
      simp only [World.run, hoverlay, hsnapshot, Option.isNone_none, and_self, if_true]
    rw [if_neg (by decide), mustRun, attains_runOr, hrun]
    simp only [true_and]

theorem attains_createWorker (hoverlay : w.overlay = none) {Q : Bool → World B → Prop} :
    Attains (reply self) Q (ensureZfsWorkerDataset self) w ↔
      Hollow w ∧ Q true { w with overlay := some .empty, base := some (w.base.getD .empty) } := by
  have hfound : w.datasetExists .worker = false := by
    change w.overlay.isSome = false
    rw [hoverlay]
    rfl
  have hisDir : ∀ {Q : Bool → World B → Prop},
      Attains (reply self) Q (isDir (.top .root)) w ↔ Q w.view.isSome w := Iff.rfl
  have hentries : ∀ {Q : List String → World B → Prop},
      Attains (reply self) Q (entries (.top .root)) w ↔ Q (w.entries (.top .root)) w := Iff.rfl
  have hview : w.view = w.base := by
    change w.overlay.or w.base = w.base
    rw [hoverlay, Option.none_or]
  have hrun : w.run self (.zfsCreate ["canmount=on", "mountpoint=" ++ self.root, ownershipProperty ++ "=1"] .worker) =
      (0, { w with overlay := some .empty, base := some (w.base.getD .empty) }) := by
    simp only [World.run, hoverlay, Option.isNone_none, if_true]
  have hempty : ∀ {Q : Unit → World B → Prop}, Attains (reply self) Q (Prog.when (w.view.isSome = true) do
      let entries ← entries (.top .root)
      Prog.when (entries ≠ []) <|
        die ("Refusing to mount a ZFS chroot over non-empty " ++ self.root ++ ".\n")) w ↔ Hollow w ∧ Q () w := by
    intro Q
    rw [attains_when, hview, attains_bind, hentries, attains_when]
    cases hbase : w.base with
    | none => simp [Hollow, hbase]
    | some X =>
      have hat : w.entries (.top .root) = X.names := by
        simp only [World.entries, Trees.at, hview, hbase]
      by_cases hX : X = .empty
      · simp [Hollow, hbase, hat, hX, Tree.names_eq_nil.2 rfl]
      · rw [if_pos (by rfl), hat, if_pos (Tree.names_eq_nil.not.2 hX)]
        exact ⟨False.elim, fun h => absurd (by simpa [Hollow, hbase] using h.1) hX⟩
  rw [ensureZfsWorkerDataset, attains_bind, attains_zfsDatasetExists, hfound, if_neg (by decide), attains_bind, hisDir,
    attains_bind, hempty, attains_bind, mustRun, attains_runOr, hrun, attains_bind, attains_assertZfsWorkerDataset,
    attains_pure]
  simp only [true_and]

theorem attains_zfsFilled (hapart : Apart self) (hrefdir : w.refdir.isSome = true) (hoverlay : w.overlay.isSome = true) :
    Attains (reply self) (fun _ => Each self 1) (do syncReferenceDir; createZfsSnapshot self; mountLoopbacks self) w ↔
      w.snapshot = none ∧ Each self 0 w := by
  obtain ⟨R, hsync⟩ := attains_syncReferenceDir self hrefdir
  have hset : w.setView R = { w.toTrees with overlay := some R } := if_pos hoverlay
  rw [attains_bind, hsync, hset, attains_bind, attains_createZfsSnapshot rfl, attains_mounted hapart]
  exact Iff.rfl

/-- What the names of the datasets have to be like for the listing to be read back. -/
structure Legible (c : Chroot) : Prop where
  worker : '\n' ∉ (Dataset.worker.text c.toConfig).toList
  snapshot : '\n' ∉ (Dataset.snapshot.text c.toConfig).toList

theorem attains_assertZfsWorkerContents (hlegible : Legible self) {Q : Unit → World B → Prop} :
    Attains (reply self) Q (assertZfsWorkerContents self) w ↔ Q () w := by
  let names := (Dataset.worker.text self.toConfig).toList ::
    if w.snapshot.isSome then [(Dataset.snapshot.text self.toConfig).toList] else []
  have hnames : ∀ name ∈ names, '\n' ∉ name ∧ (name = (Dataset.worker.text self.toConfig).toList ∨
      name = (Dataset.snapshot.text self.toConfig).toList) := by
    intro name hname
    rcases List.mem_cons.1 hname with rfl | hname
    · exact ⟨hlegible.worker, .inl rfl⟩
    · split at hname
      · rw [List.mem_singleton.1 hname]
        exact ⟨hlegible.snapshot, .inr rfl⟩
      · cases hname
  have htext : ((w.captured self .zfsListAll).2).toList = names.flatMap (· ++ ['\n']) := by
    simp only [World.captured, names]
    split <;> simp
  have hnone : unexpectedName self (w.captured self .zfsListAll).2 = none := by
    refine List.find?_eq_none.2 fun name hname => ?_
    obtain ⟨hname, hne⟩ := List.mem_filter.1 hname
    have hmem := mem_of_mem_split hname
    rw [htext] at hmem
    rcases of_mem_lines (fun l hl => (hnames l hl).1) hmem with rfl | hmem
    · simp at hne
    · rcases (hnames name hmem).2 with rfl | rfl <;> simp
  have hexit : ¬ (w.captured self .zfsListAll).1 ≠ 0 := not_not.2 rfl
  rw [assertZfsWorkerContents, attains_bind, attains_capture, attains_bind, attains_unless hexit, hnone, attains_pure]

theorem attains_cleanZfs (hapart : Apart self) (hlegible : Legible self) (hsnapshot : w.snapshot.isSome = true) :
    Attains (reply self) (fun _ => Each self 1) (cleanZfs self) w ↔ Most self w := by
  let v := lowered w (unmounted self)
  have hrun : v.run self (.zfsRollback .snapshot) = (0, { v with overlay := w.snapshot }) := by
    have hv : v.snapshot.isSome = true := hsnapshot
    simp only [World.run, hv, if_true]
    rfl
  have hrest : Attains (reply self) (fun _ => Each self 1) (do
      assertZfsWorkerContents self
      mustRun self (.zfsRollback .snapshot)
      mountLoopbacks self) v ↔ Each self 0 v ∧ True := by
    rw [attains_bind, attains_assertZfsWorkerContents hlegible, attains_bind, mustRun, attains_runOr, hrun,
      attains_mounted hapart]
    simp only [true_and, and_true]
    exact Iff.rfl
  have hstrict := attains_strict hapart hrest
  rwa [and_true] at hstrict

def Refreshable (self : Chroot) (w : World B) : Prop :=
  if w.overlay.isSome then Most self w ∧ Hollow w else Creatable self w

instance : Decidable (Refreshable self w) :=
  inferInstanceAs (Decidable (if w.overlay.isSome then Most self w ∧ Hollow w else Creatable self w))

theorem attains_createFilled (hapart : Apart self) (hrefdir : w.refdir.isSome = true) (hoverlay : w.overlay = none) :
    Attains (reply self) (fun _ => Each self 1) (do
      let _ ← ensureZfsWorkerDataset self
      syncReferenceDir
      createZfsSnapshot self
      mountLoopbacks self) w ↔ Creatable self w := by
  let v : World B := { w with overlay := some .empty, base := some (w.base.getD .empty) }
  have hv : v.refdir.isSome = true := hrefdir
  rw [attains_bind, attains_createWorker hoverlay, attains_zfsFilled (w := v) hapart hv rfl]
  exact Iff.rfl

theorem attains_refreshZfsBaseline (hapart : Apart self) (hlegible : Legible self) (hrefdir : w.refdir.isSome = true) :
    Attains (reply self) (fun _ => Each self 1) (refreshZfsBaseline self) w ↔ Refreshable self w := by
  have hfound : w.datasetExists .worker = w.overlay.isSome := rfl
  rw [refreshZfsBaseline, attains_bind, attains_zfsDatasetExists, hfound, attains_bind, attains_when, Refreshable]
  split
  · rename_i hoverlay
    let v := lowered w (unmounted self)
    let u : World B := { v with snapshot := none, overlay := none }
    have hdestroySnapshot : ∀ {Q : Unit → World B → Prop}, Attains (reply self) Q
        (Prog.when (v.datasetExists .snapshot = true) (mustRun self (.zfsDestroy .snapshot))) v ↔
          Q () { v with snapshot := none } := by
      intro Q
      rw [attains_when]
      split
      · rename_i hsnapshot
        have hrun : v.run self (.zfsDestroy .snapshot) = (0, { v with snapshot := none }) := if_pos hsnapshot
        rw [mustRun, attains_runOr, hrun]
        simp only [true_and]
      · rename_i hsnapshot
        have hnone : v.snapshot = none := Option.not_isSome_iff_eq_none.1 hsnapshot
        rw [← hnone]
    have hdestroy : ({ v with snapshot := none } : World B).run self (.zfsDestroy .worker) = (0, u) :=
      if_pos ⟨hoverlay, rfl⟩
    have hrest : Attains (reply self) (fun _ => Attains (reply self) (fun _ => Each self 1) (do
        let _ ← ensureZfsWorkerDataset self
        syncReferenceDir
        createZfsSnapshot self
        mountLoopbacks self)) (do
        assertZfsWorkerContents self
        let taken ← zfsDatasetExists self .snapshot
        Prog.when (taken = true) (mustRun self (.zfsDestroy .snapshot))
        mustRun self (.zfsDestroy .worker)) v ↔ Each self 0 v ∧ Hollow w := by
      rw [attains_bind, attains_assertZfsWorkerContents hlegible, attains_bind, attains_zfsDatasetExists, attains_bind,
        hdestroySnapshot, mustRun, attains_runOr, hdestroy, attains_createFilled (w := u) hapart hrefdir rfl]
      simp only [true_and]
      exact ⟨fun h => ⟨h.2.2, h.1⟩, fun h => ⟨h.2, rfl, h.1⟩⟩
    rw [destroyWorker, attains_bind, attains_assertZfsWorkerDataset]
    exact attains_strict hapart hrest
  · rename_i hoverlay
    exact attains_createFilled hapart hrefdir (Option.not_isSome_iff_eq_none.1 hoverlay)

def Keepable (self : Chroot) (w : World B) : Prop :=
  Matching w ∧ if w.fileExists (.below .root "/usr/mports/Makefile") = true then Each self 1 w else Most self w

instance : Decidable (Keepable self w) := inferInstanceAs <| Decidable <|
  _ ∧ if w.fileExists (.below .root "/usr/mports/Makefile") = true then Each self 1 w else Most self w

/-- When a dataset can be used again: never without its snapshot or without a marker. -/
def Reusable (self : Chroot) (w : World B) : Prop :=
  w.snapshot.isSome = true ∧
    if w.fileExists (.marker .root .dirty) = true then Most self w
    else if w.fileExists (.marker .root .dead) = true then Refreshable self w
    else Keepable self w

instance : Decidable (Reusable self w) := inferInstanceAs <| Decidable <|
  _ ∧ if w.fileExists (.marker .root .dirty) = true then Most self w
    else if w.fileExists (.marker .root .dead) = true then Refreshable self w
    else Keepable self w

def ZfsRecoverable (self : Chroot) (w : World B) : Prop :=
  if self.refreshSnapshot = true then Refreshable self w
  else if w.overlay.isSome = false then Creatable self w
  else Reusable self w

instance : Decidable (ZfsRecoverable self w) := inferInstanceAs <| Decidable <|
  if self.refreshSnapshot = true then Refreshable self w
  else if w.overlay.isSome = false then Creatable self w
  else Reusable self w

theorem attains_keepZfs (hapart : Apart self) :
    Attains (reply self) (fun _ => Each self 1) (keepZfs self (B.sum w.tarball)) w ↔ Keepable self w := by
  have hremount : Attains (reply self) (fun _ => Each self 1) (do
      unmountLoopbacks self true
      mountLoopbacks self) w ↔ Most self w := by
    have hstrict := attains_strict (w := w) (C := True) hapart ((attains_mounted hapart).trans (and_true _).symm.to_iff)
    rwa [and_true] at hstrict
  rw [keepZfs, attains_bind, attains_cleanAndMatches, attains_bind, attains_when, Keepable]
  by_cases hmatching : Matching w
  · rw [decide_eq_true hmatching, if_neg (by decide), attains_bind, attains_fileExists, attains_when, hremount]
    cases w.fileExists (.below .root "/usr/mports/Makefile") with
    | true => exact (and_iff_right hmatching).symm
    | false => exact (and_iff_right hmatching).symm
  · rw [decide_eq_false hmatching, if_pos rfl]
    exact ⟨False.elim, fun h => hmatching h.1⟩

theorem attains_reuseZfs (hapart : Apart self) (hlegible : Legible self) (hrefdir : w.refdir.isSome = true) :
    Attains (reply self) (fun _ => Each self 1) (reuseZfs self (B.sum w.tarball)) w ↔ Reusable self w := by
  have htaken : w.datasetExists .snapshot = w.snapshot.isSome := rfl
  rw [reuseZfs, attains_bind, attains_assertZfsWorkerDataset, attains_bind, attains_zfsDatasetExists, attains_bind, htaken,
    attains_when, Reusable]
  cases hsnapshot : w.snapshot.isSome with
  | false => exact ⟨False.elim, fun h => by cases h.1⟩
  | true =>
    rw [if_neg (by decide), attains_bind, attains_fileExists]
    refine Iff.trans ?_ (and_iff_right rfl).symm
    split
    · exact attains_cleanZfs hapart hlegible hsnapshot
    · rw [attains_bind, attains_fileExists]
      split
      · exact attains_refreshZfsBaseline hapart hlegible hrefdir
      · exact attains_keepZfs hapart

theorem attains_initZfs (hapart : Apart self) (hlegible : Legible self) (hrefdir : w.refdir.isSome = true) :
    Attains (reply self) (fun _ => Each self 1) (initZfs self (B.sum w.tarball)) w ↔ ZfsRecoverable self w := by
  let v : World B := { w with branch := true }
  have hv : v.refdir.isSome = true := hrefdir
  rw [initZfs, attains_bind, attains_ensureZfsHierarchy, ZfsRecoverable]
  split
  · exact attains_refreshZfsBaseline (w := v) hapart hlegible hv
  · cases hoverlay : w.overlay with
    | none =>
      have hcreate := attains_createFilled (w := v) hapart hv hoverlay
      rw [attains_bind, attains_createWorker (w := v) hoverlay] at hcreate ⊢
      rw [if_pos (by rfl)]
      exact hcreate
    | some X =>
      have hfound : v.datasetExists .worker = true := by
        change w.overlay.isSome = true
        rw [hoverlay]
        rfl
      rw [if_neg (by simp), attains_bind, ensureZfsWorkerDataset, attains_bind, attains_zfsDatasetExists, hfound, if_pos rfl,
        attains_pure]
      exact attains_reuseZfs (w := v) hapart hlegible hv

end Zfs

section Recovery
variable {config : Config}

def Recovers (config : Config) (w : World B) : Prop :=
  ∃ u, exec (World.act config.chroot) (new config) w = (.ret config.chroot, u) ∧
    ∀ m ∈ points config.chroot, u.mounts m = 1

def Recoverable (config : Config) (w : World B) : Prop :=
  if config.zfs = true then ZfsRecoverable config.chroot w else CpdupRecoverable config.chroot w

instance (w : World B) : Decidable (Recoverable config w) := inferInstanceAs <| Decidable <|
  if config.zfs = true then ZfsRecoverable config.chroot w else CpdupRecoverable config.chroot w

theorem legible_of_validated (hvalid : validateZfsConfig config = .ok ()) (hzfs : config.zfs = true) :
    Legible config.chroot := by
  constructor
  · exact fun h => absurd (worker_plain hvalid hzfs _ h) (by decide)
  · exact fun h => absurd (snapshot_plain hvalid hzfs _ h) (by decide)

/-- From any state an interrupted process may have left, and from any other. -/
theorem recovers_iff (config : Config) (htarball : truthy config.tarball = true)
    (hvalid : validateZfsConfig config = .ok ()) (hdisk : config.memoryDisk = false) (hapart : Apart config.chroot)
    (w : World B) : Recovers config w ↔ Recoverable config w := by
  have hattains : Recovers config w ↔
      Attains (reply config.chroot) (fun self u => self = config.chroot ∧ Each config.chroot 1 u) (new config) w := by
    rw [attains_iff]
    constructor
    · rintro ⟨u, hrun, heach⟩
      exact ⟨_, u, hrun, rfl, heach⟩
    · rintro ⟨_, u, hrun, rfl, heach⟩
      exact ⟨u, hrun, heach⟩
  obtain ⟨R, hreference⟩ := attains_createReferenceDir config.chroot w
  rw [hattains, new, attains_bind, attains_unless (by simp [htarball]), hvalid]
  have hreturned : Attains (reply config.chroot) (fun self u => self = config.chroot ∧ Each config.chroot 1 u)
      (do init config.chroot; return config.chroot) w ↔
        Attains (reply config.chroot) (fun _ => Each config.chroot 1) (init config.chroot) w :=
    attains_bind.trans (attains_congr fun _ _ => and_iff_right rfl)
  refine hreturned.trans ?_
  rw [init, attains_bind, hreference, Recoverable]
  split
  · rename_i hzfs
    have hconfig : config.zfs = true := hzfs
    rw [if_pos hconfig]
    exact attains_initZfs (w := { w with refdir := some R }) hapart (legible_of_validated hvalid hzfs) rfl
  · rename_i hzfs
    have hconfig : ¬ config.zfs = true := hzfs
    rw [if_neg hconfig]
    exact attains_initCpdup (w := { w with refdir := some R }) hapart (Bool.not_eq_true _ ▸ hzfs) hdisk rfl

end Recovery

section Interrupted

def cpdupConfig : Config := { zfsConfig with zfs := false }

theorem apart_zfs : Apart zfsConfig.chroot := ⟨by decide +kernel, by decide +kernel⟩

theorem dirty_recovers : Recovers zfsConfig baselineDirty.toWorld :=
  (recovers_iff zfsConfig (by decide +kernel) (by decide +kernel) rfl apart_zfs _).2 (by decide +kernel)

/-- Killed in `mark_dirty`, between the first marker and the next. -/
def interrupted (config : Config) (s : System twoReleases) : System twoReleases :=
  ⟨(advance (World.act config.chroot) 1 ChrootScript.markDirty s.toWorld).2, .idle⟩

theorem interrupted_step (config : Config) {s : System twoReleases} (h : s.phase ≠ .idle) :
    Step config s (.call .markDirty .killed) (interrupted config s) := by
  have hanswers : ∀ (w : World twoReleases) (o : chroot.Op),
      Answered config.chroot w o (reply config.chroot w o).1 (reply config.chroot w o).2 := fun _ _ => .inl rfl
  exact .call (.inl h) ⟨_, runs_advance hanswers 1 ChrootScript.markDirty s.toWorld⟩

def prepared : System twoReleases := (first false true).after cpdupConfig (.new false)

/-- Without a marker a ZFS root is refused for ever, and any other gets its mounts twice. -/
theorem interrupted_marks :
    (∃ h s, Run (Step zfsConfig) (first (B := twoReleases) false true) h s ∧ ¬ Recovers zfsConfig s.toWorld) ∧
      ∃ h s, Run (Step cpdupConfig) (first (B := twoReleases) false true) h s ∧ ¬ Recovers cpdupConfig s.toWorld := by
  constructor
  · refine ⟨_, interrupted zfsConfig baseline, .next (.next .start baseline_step) (interrupted_step _ (by decide)), ?_⟩
    rw [recovers_iff zfsConfig (by decide +kernel) (by decide +kernel) rfl apart_zfs]
    decide +kernel
  · have hstep : Step cpdupConfig (first (B := twoReleases) false true) (.call (.new false) .returned) prepared :=
      System.step_after (.inr ⟨false, rfl⟩) (by decide +kernel)
    refine ⟨_, interrupted cpdupConfig prepared, .next (.next .start hstep) (interrupted_step _ (by decide)), ?_⟩
    rw [recovers_iff cpdupConfig (by decide +kernel) (by decide +kernel) rfl ⟨by decide +kernel, by decide +kernel⟩]
    decide +kernel

end Interrupted
end Mports.ChrootRecovery
