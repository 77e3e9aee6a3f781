import Mports.ChrootFootprint
import Mports.ChrootNames
import Mports.ProgramRuns

set_option autoImplicit false

namespace Mports.ZfsGuards
open PerlText StatementPrograms ProgramRuns ChrootScript ChrootFootprint

/-- A statement that was issued, and its answer. -/
structure Event where
  op : Op
  answer : Except String (chroot.Res op)

abbrev Trace := List Event

def Answered (t : Trace) (o : Op) (r : Except String (chroot.Res o)) (u : Trace) : Prop :=
  u = t ++ [⟨o, r⟩]

section Guards
variable (self : Chroot)

/-- `zfs destroy` or `zfs rollback`. -/
def Destroys (argv : List String) : Prop :=
  argv.take 2 = ["/sbin/zfs", "destroy"] ∨ argv.take 2 = ["/sbin/zfs", "rollback"]

instance (argv : List String) : Decidable (Destroys argv) := inferInstanceAs (Decidable (_ ∨ _))

def harmless : Op → Bool
  | .run (.zfsDestroy _) | .run (.zfsRollback _) => false
  | _ => true

def allowed : Op → Bool
  | .run (.zfsDestroy dataset) | .run (.zfsRollback dataset) => dataset = .worker || dataset = .snapshot
  | _ => true

theorem not_harmless_of_destroys {c : Command} (h : Destroys (c.argv self)) : harmless (.run c) = false := by
  cases c with
  | zfsDestroy | zfsRollback => rfl
  | _ => simp [Destroys, Command.argv] at h

/-- The command was captured, with exit code 0 and an output that is as wanted. -/
def Captured (t : Trace) (c : Command) (wanted : String → Prop) : Prop :=
  ∃ output, (⟨.capture c, .ok (0, output)⟩ : Event) ∈ t ∧ wanted output

/-- The checks of `_assert_zfs_worker_dataset`. -/
def Asserted (t : Trace) : Prop :=
  Captured t (.zfsOwnership .worker) (fun output => owned output = true) ∧
    Captured t (.zfsGet "mountpoint" .worker) (fun output => chomp output = self.root)

/-- Those and the checks of `_unmount_loopbacks` and `_assert_zfs_worker_contents`. -/
def Guarded (t : Trace) : Prop :=
  self.zfs = true ∧ Asserted self t ∧ Captured t .mountTable (fun output => remaining self output = none) ∧
    Captured t .zfsListAll (fun output => unexpectedName self output = none)

def Needed (t : Trace) (o : Op) : Prop := harmless o = true ∨ allowed o = true ∧ Guarded self t

abbrev setting : Setting chroot Trace := alone Answered (Needed self)

abbrev Harmless {α : Type} (p : Perl α) : Prop := Uses (fun o => harmless o = true) (fun _ _ => True) p

end Guards

section Rules
variable {self : Chroot} {α β : Type} {I : Trace → Prop} {t : Trace}

def Lasting (I : Trace → Prop) : Prop := ∀ t o r, I t → I (t ++ [⟨o, r⟩])

theorem Captured.lasting {c : Command} {wanted : String → Prop} : Lasting fun t => Captured t c wanted :=
  fun _ _ _ ⟨output, hmem, hw⟩ => ⟨output, List.mem_append_left _ hmem, hw⟩

theorem Lasting.and {J : Trace → Prop} (hI : Lasting I) (hJ : Lasting J) : Lasting fun t => I t ∧ J t :=
  fun t o r h => ⟨hI t o r h.1, hJ t o r h.2⟩

theorem Asserted.lasting : Lasting (Asserted self) := Captured.lasting.and Captured.lasting

theorem Guarded.lasting : Lasting (Guarded self) :=
  fun t o r h => ⟨h.1, (Asserted.lasting.and (Captured.lasting.and Captured.lasting)) t o r h.2⟩

abbrev Returns (Q : α → Trace → Prop) : Exit chroot α → Trace → Prop :=
  Ends Q (fun _ _ => True) fun _ _ => True

theorem harmless_keeps (hI : Lasting I) {p : Perl α} (hp : Harmless p) (ht : I t) : Outline (setting self) (Returns fun _ => I) p t := by
  refine (Outline.of_uses (I := I) (P := fun o => harmless o = true) (A := fun _ _ => True) ?_ ?_ hp ht).mono ?_
  · intro o s u _ hs hu
    exact hu ▸ hs
  · intro o s ho hs
    refine ⟨.inl ho, fun r u hu => ⟨trivial, ?_⟩⟩
    cases hu
    exact hI s o r hs
  · intro x u hu
    cases x with
    | ret a => exact hu
    | _ => trivial

theorem guarded_outline {p : Perl α} (hp : Uses (fun o => allowed o = true) (fun _ _ => True) p)
    (ht : Guarded self t) : Outline (setting self) (Returns fun _ _ => True) p t := by
  refine (Outline.of_uses (I := Guarded self) (P := fun o => allowed o = true) (A := fun _ _ => True) ?_ ?_
    hp ht).mono ?_
  · intro o s u _ hs hu
    exact hu ▸ hs
  · intro o s ho hs
    refine ⟨.inr ⟨ho, hs⟩, fun r u hu => ⟨trivial, ?_⟩⟩
    cases hu
    exact Guarded.lasting s o r hs
  · intro x u hu
    cases x <;> trivial

theorem Harmless.allowed {p : Perl α} (hp : Harmless p) : Uses (fun o => allowed o = true) (fun _ _ => True) p :=
  hp.mono fun o ho => by
    cases o with
    | run c => cases c <;> simp_all [harmless, ZfsGuards.allowed]
    | _ => rfl

theorem capture_outline {Q : β → Trace → Prop} (hI : Lasting I) {c : Command} {f : ℕ × String → Perl β}
    (ht : I t) (hf : ∀ exit output u, I u → (⟨.capture c, .ok (exit, output)⟩ : Event) ∈ u →
      Outline (setting self) (Returns Q) (f (exit, output)) u) :
    Outline (setting self) (Returns Q) (captureCommand c >>= f) t := by
  have hcapture : Outline (setting self)
      (Returns fun x u => I u ∧ (⟨.capture c, .ok x⟩ : Event) ∈ u) (captureCommand c) t := by
    refine outline_issue (.inl rfl) (fun x u hu => ?_) fun _ _ _ => trivial
    cases hu
    exact ⟨hI t _ _ ht, List.mem_append_right _ (List.mem_singleton.2 rfl)⟩
  exact hcapture.seq fun (exit, output) u hu => hf exit output u hu.1 hu.2

theorem unless_die {c : Prop} [Decidable c] {message : String} (ht : I t) :
    Outline (setting self) (Returns fun _ u => ¬ c ∧ I u) (Prog.when c (die message)) t := by
  refine .when (fun _ => outline_raise trivial) fun hc => outline_ret ⟨hc, ht⟩

end Rules

section HarmlessParts
variable {self : Chroot}

theorem harmless_of_quiet {o : Op} (h : quiet o = true) : harmless o = true := by
  cases o with
  | run c => cases c <;> first | rfl | exact h
  | _ => rfl

theorem harmless_quiet {α : Type} {p : Perl α} (hp : Quiet p) : Harmless p :=
  hp.mono fun _ => harmless_of_quiet

theorem harmless_runOr {c : Command} (h : harmless (.run c) = true) (message : String) :
    Harmless (runOr c message) :=
  Uses.bind (Uses.issue h) fun _ => harmless_quiet (quiet_unless _)

theorem harmless_mustRun {c : Command} (h : harmless (.run c) = true) : Harmless (mustRun self c) :=
  harmless_runOr h _

theorem harmless_createZfsSnapshot : Harmless (createZfsSnapshot self) :=
  (harmless_quiet (quiet_zfsDatasetExists _)).bind fun _ => (harmless_quiet (quiet_unless _)).bind fun _ =>
    harmless_mustRun rfl

theorem harmless_buildReference (tarballsum : String) : Harmless (buildReference self tarballsum) := by
  have hask : ∀ o : Op, harmless o = true → Harmless (ask o) := fun _ h => Uses.issue h
  have hmtree : ∀ file dir, Harmless (ChrootScript.mtree self file dir) := fun _ _ => harmless_quiet (quiet_mtree _ _)
  have hmkdir : ∀ dir, Harmless (mkdir .refdir dir) := fun _ => harmless_quiet (quiet_mkdir _ _)
  refine (hask (.mkpath _) rfl).bind fun _ => (harmless_runOr rfl _).bind fun _ =>
    (hask (.symlink _ _) rfl).bind fun _ => ?_
  refine (hmtree _ _).bind fun _ => (hmtree _ _).bind fun _ => (hmtree _ _).bind fun _ =>
    (harmless_quiet (quiet_isDir _)).bind fun _ => (Uses.when fun _ => hmkdir _).bind fun _ => ?_
  refine (Uses.forEach fun _ _ => hmkdir _).bind fun _ => (hmkdir _).bind fun _ =>
    (hmtree _ _).bind fun _ => (Uses.when fun _ => hmtree _ _).bind fun _ => ?_
  exact (hask (.touchfile _) rfl).bind fun _ => hask (.writeLine _ _) rfl

theorem harmless_createReferenceDir : Harmless (createReferenceDir self) := by
  have hrmtree : Harmless (rmtree (.top .refdir)) := Uses.issue rfl
  have hexists : Harmless (fileExists (.top .refdir)) := harmless_quiet (quiet_fileExists _)
  refine (harmless_quiet quiet_tarballChecksum).bind fun _ => (harmless_quiet (quiet_firstLine _)).bind fun _ =>
    .ite (fun _ => Uses.pure _) fun _ => ?_
  refine hexists.bind fun _ => (Uses.when fun _ => ?_).bind fun _ =>
    (harmless_buildReference _).bind fun _ => Uses.pure _
  exact (harmless_quiet (quiet_clearFlagsPath _)).bind fun _ => hrmtree.bind fun _ => hexists.bind fun _ =>
    .when fun _ => (harmless_quiet quiet_errno).bind fun _ => Uses.raise _

theorem harmless_ensureZfsWorkerDataset : Harmless (ensureZfsWorkerDataset self) := by
  have hempty : Harmless (do
      let entries ← entries (.top .root)
      Prog.when (entries ≠ []) <|
        die ("Refusing to mount a ZFS chroot over non-empty " ++ self.root ++ ".\n")) :=
    harmless_quiet ((quiet_entries _).bind fun _ => quiet_unless _)
  refine (harmless_quiet (quiet_zfsDatasetExists _)).bind fun _ => .ite (fun _ => Uses.pure _) fun _ => ?_
  refine (harmless_quiet (quiet_isDir _)).bind fun _ => (Uses.when fun _ => hempty).bind fun _ =>
    (harmless_mustRun rfl).bind fun _ => (harmless_quiet quiet_assertZfsWorkerDataset).bind fun _ => Uses.pure _

theorem harmless_mount : Harmless (mountLoopbacks self) := harmless_quiet quiet_mountLoopbacks

theorem harmless_clean (hzfs : self.zfs = false) : Harmless (clean self) := by
  simp only [clean, hzfs]
  exact (harmless_quiet (quiet_unmountLoopbacks true)).bind fun _ =>
    (harmless_quiet (quiet_clearFlagsPath _)).bind fun _ => (harmless_runOr rfl _).bind fun _ => harmless_mount

theorem harmless_fillRoot : Harmless (fillRoot self) := by
  have hmkpath : Harmless (ask (.mkpath (.top .root))) := Uses.issue rfl
  refine hmkpath.bind fun _ => (Uses.when fun _ => ?_).bind fun _ => (harmless_runOr rfl _).bind fun _ =>
    harmless_mount
  exact (harmless_runOr rfl _).bind fun _ => (harmless_runOr rfl _).bind fun _ => harmless_runOr rfl _

theorem harmless_delete (hzfs : self.zfs = false) : Harmless (delete self) := by
  have hrmtree : Harmless (rmtree (.top .root)) := Uses.issue rfl
  simp only [delete, hzfs]
  refine (harmless_quiet (quiet_unmountLoopbacks false)).bind fun _ => .ite (fun _ => ?_) fun _ => ?_
  · exact (harmless_runOr rfl _).bind fun _ => harmless_runOr rfl _
  · exact (harmless_quiet (quiet_clearFlagsPath _)).bind fun _ => hrmtree.bind fun _ => .when fun _ =>
      (harmless_quiet quiet_errno).bind fun _ => Uses.raise _

theorem harmless_renewRoot (hzfs : self.zfs = false) : Harmless (renewRoot self) := by
  have hmark : Harmless (do ask (.unlink (.marker .root .clean)); ask (.touchfile (.marker .root .dirty))) :=
    Uses.bind (Uses.issue rfl) fun _ => Uses.issue rfl
  have hexists : ∀ m, Harmless (fileExists (.marker .root m)) := fun _ => harmless_quiet (quiet_fileExists _)
  refine (hexists _).bind fun _ => (Uses.when fun _ => hmark).bind fun _ =>
    (hexists _).bind fun _ => .ite (fun _ => harmless_clean hzfs) fun _ => ?_
  exact (hexists _).bind fun _ => (Uses.when fun _ => harmless_delete hzfs).bind fun _ => harmless_fillRoot

theorem harmless_initCpdup (hzfs : self.zfs = false) (sum : String) : Harmless (initCpdup self sum) :=
  (harmless_quiet quiet_loopbackBroken).bind fun _ => (Uses.when fun _ => harmless_delete hzfs).bind fun _ =>
    (harmless_quiet (quiet_cleanAndMatches sum)).bind fun _ => .when fun _ => harmless_renewRoot hzfs

end HarmlessParts

section Checks
variable {self : Chroot} {I : Trace → Prop} {t : Trace}

theorem assertZfsOwned_checks (hI : Lasting I) (dataset : Dataset) (ht : I t) :
    Outline (setting self) (Returns fun _ u => I u ∧
      Captured u (.zfsOwnership dataset) fun output => owned output = true)
      (assertZfsOwned self dataset) t := by
  refine capture_outline hI ht fun exit output u hu hmem => ?_
  refine (unless_die (I := fun u => I u ∧ ⟨.capture (.zfsOwnership dataset), .ok (exit, output)⟩ ∈ u)
    ⟨hu, hmem⟩).seq fun _ u hu => ?_
  obtain ⟨hexit, hu, hmem⟩ := hu
  refine (unless_die (I := fun u => I u ∧ ⟨.capture (.zfsOwnership dataset), .ok (exit, output)⟩ ∈ u)
    ⟨hu, hmem⟩).returns fun _ u hu => ?_
  obtain ⟨howned, hu, hmem⟩ := hu
  have hzero : exit = 0 := not_not.1 hexit
  exact ⟨hu, output, hzero ▸ hmem, by simpa using howned⟩

theorem zfsGet_checks (hI : Lasting I) (property : String) (dataset : Dataset) (ht : I t) :
    Outline (setting self) (Returns fun value u => I u ∧
      Captured u (.zfsGet property dataset) fun output => chomp output = value)
      (zfsGet self property dataset) t := by
  refine capture_outline hI ht fun exit output u hu hmem => ?_
  dsimp only
  split
  · exact outline_raise trivial
  · rename_i hexit
    have hzero : exit = 0 := not_not.1 hexit
    exact outline_ret ⟨hu, output, hzero ▸ hmem, rfl⟩

theorem assertZfsWorkerDataset_checks : Outline (setting self) (Returns fun _ => Asserted self)
    (assertZfsWorkerDataset self) t := by
  have hall : Lasting fun _ => True := fun _ _ _ h => h
  refine (assertZfsOwned_checks hall .worker trivial).seq fun _ u hu => ?_
  refine (zfsGet_checks (I := fun u => Captured u (.zfsOwnership .worker) fun output => owned output = true)
    Captured.lasting "mountpoint" .worker hu.2).seq fun mountpoint u hu => ?_
  refine (unless_die (I := fun u => Captured u (.zfsOwnership .worker) (fun output => owned output = true) ∧
    Captured u (.zfsGet "mountpoint" .worker) fun output => chomp output = mountpoint) hu).seq fun _ u hu => ?_
  obtain ⟨hroot, howned, hmountpoint⟩ := hu
  have hasserted : Asserted self u := ⟨howned, (not_not.1 hroot) ▸ hmountpoint⟩
  refine (harmless_keeps Asserted.lasting (harmless_quiet (quiet_zfsGet _ _)) hasserted).seq fun _ u hu => ?_
  exact harmless_keeps Asserted.lasting (.when fun _ => harmless_mustRun rfl) hu

theorem unmountLoopbacks_checks (hI : Lasting I) (ht : I t) : Outline (setting self)
    (Returns fun _ u => I u ∧ Captured u .mountTable fun output => remaining self output = none)
    (unmountLoopbacks self true) t := by
  refine (harmless_keeps hI (harmless_quiet quiet_umounts) ht).seq fun _ u hu => .when (fun _ => ?_) fun h => absurd rfl h
  refine capture_outline hI hu fun exit output u hu hmem => ?_
  refine (unless_die (I := fun u => I u ∧ ⟨.capture .mountTable, .ok (exit, output)⟩ ∈ u)
    ⟨hu, hmem⟩).seq fun _ u hu => ?_
  obtain ⟨hexit, hu, hmem⟩ := hu
  have hzero : exit = 0 := not_not.1 hexit
  split
  · exact outline_raise trivial
  · rename_i hnone
    exact outline_ret ⟨hu, output, hzero ▸ hmem, hnone⟩

theorem assertZfsWorkerContents_checks (hI : Lasting I) (ht : I t) : Outline (setting self)
    (Returns fun _ u => I u ∧ Captured u .zfsListAll fun output => unexpectedName self output = none)
    (assertZfsWorkerContents self) t := by
  refine capture_outline hI ht fun exit output u hu hmem => ?_
  refine (unless_die (I := fun u => I u ∧ ⟨.capture .zfsListAll, .ok (exit, output)⟩ ∈ u)
    ⟨hu, hmem⟩).seq fun _ u hu => ?_
  obtain ⟨hexit, hu, hmem⟩ := hu
  have hzero : exit = 0 := not_not.1 hexit
  split
  · exact outline_raise trivial
  · rename_i hnone
    exact outline_ret ⟨hu, output, hzero ▸ hmem, hnone⟩

theorem checked_outline (hzfs : self.zfs = true) {p : Perl Unit}
    (hp : Uses (fun o => allowed o = true) (fun _ _ => True) p) (ht : Asserted self t) :
    Outline (setting self) (Returns fun _ _ => True)
      (do unmountLoopbacks self true; assertZfsWorkerContents self; p) t := by
  refine (unmountLoopbacks_checks Asserted.lasting ht).seq fun _ u hu => ?_
  refine (assertZfsWorkerContents_checks (Asserted.lasting.and Captured.lasting) hu).seq fun _ u hu => ?_
  exact guarded_outline hp ⟨hzfs, hu.1.1, hu.1.2, hu.2⟩

theorem allowed_mustRun {c : Command} (h : allowed (.run c) = true) :
    Uses (fun o => allowed o = true) (fun _ _ => True) (mustRun self c) := by
  have hsystem : Uses (fun o => allowed o = true) (fun _ _ => True) (system c) := Uses.issue h
  exact hsystem.bind fun _ => (harmless_quiet (quiet_unless _)).allowed

theorem destroyWorker_outline (hzfs : self.zfs = true) :
    Outline (setting self) (Returns fun _ _ => True) (destroyWorker self) t := by
  refine assertZfsWorkerDataset_checks.seq fun _ _ hu => checked_outline hzfs ?_ hu
  exact (harmless_quiet (quiet_zfsDatasetExists .snapshot)).allowed.bind fun _ =>
    (Uses.when fun _ => allowed_mustRun rfl).bind fun _ => allowed_mustRun rfl

theorem cleanZfs_outline (hzfs : self.zfs = true) (ht : Asserted self t) :
    Outline (setting self) (Returns fun _ _ => True) (cleanZfs self) t :=
  checked_outline hzfs ((allowed_mustRun rfl).bind fun _ => harmless_mount.allowed) ht

theorem harmless_outline {α : Type} {p : Perl α} (hp : Harmless p) :
    Outline (setting self) (Returns fun _ _ => True) p t :=
  harmless_keeps (fun _ _ _ h => h) hp trivial

theorem harmless_fill : Harmless (do syncReferenceDir; createZfsSnapshot self; mountLoopbacks self) :=
  (harmless_runOr rfl _).bind fun _ => harmless_createZfsSnapshot.bind fun _ => harmless_mount

theorem refreshZfsBaseline_outline (hzfs : self.zfs = true) :
    Outline (setting self) (Returns fun _ _ => True) (refreshZfsBaseline self) t := by
  refine (harmless_outline (harmless_quiet (quiet_zfsDatasetExists .worker))).seq fun _ _ _ => ?_
  refine (Outline.when (fun _ => destroyWorker_outline hzfs) fun _ => outline_ret trivial).seq fun _ _ _ => ?_
  exact harmless_outline (harmless_ensureZfsWorkerDataset.bind fun _ => harmless_fill)

theorem reuseZfs_outline (hzfs : self.zfs = true) (sum : String) :
    Outline (setting self) (Returns fun _ _ => True) (reuseZfs self sum) t := by
  refine assertZfsWorkerDataset_checks.seq fun _ u hu => ?_
  refine (harmless_keeps Asserted.lasting (harmless_quiet (quiet_zfsDatasetExists .snapshot)) hu).seq fun _ u hu => ?_
  refine (harmless_keeps Asserted.lasting (harmless_quiet (quiet_unless _)) hu).seq fun _ u hu => ?_
  refine (harmless_keeps Asserted.lasting (harmless_quiet (quiet_fileExists _)) hu).seq fun dirty u hu => ?_
  split
  · exact cleanZfs_outline hzfs hu
  refine (harmless_outline (harmless_quiet (quiet_fileExists _))).seq fun dead u _ => ?_
  split
  · exact refreshZfsBaseline_outline hzfs
  exact harmless_outline (harmless_quiet (quiet_keepZfs sum))

theorem initZfs_outline (hzfs : self.zfs = true) (sum : String) :
    Outline (setting self) (Returns fun _ _ => True) (initZfs self sum) t := by
  refine (harmless_outline (harmless_quiet quiet_ensureZfsHierarchy)).seq fun _ _ _ => ?_
  split
  · exact refreshZfsBaseline_outline hzfs
  refine (harmless_outline harmless_ensureZfsWorkerDataset).seq fun created _ _ => ?_
  split
  · exact harmless_outline harmless_fill
  · exact reuseZfs_outline hzfs sum

theorem delete_outline : Outline (setting self) (Returns fun _ _ => True) (delete self) t := by
  by_cases hzfs : self.zfs = true
  · simp only [delete, hzfs, if_true]
    exact (harmless_outline (harmless_quiet (quiet_zfsDatasetExists .worker))).seq fun _ _ _ =>
      .when (fun _ => destroyWorker_outline hzfs) fun _ => outline_ret trivial
  · exact harmless_outline (harmless_delete (by simpa using hzfs))

theorem init_outline : Outline (setting self) (Returns fun _ _ => True) (init self) t := by
  refine (harmless_outline harmless_createReferenceDir).seq fun sum _ _ => ?_
  split
  · exact initZfs_outline ‹_› sum
  · exact harmless_outline (harmless_initCpdup (by simpa using ‹¬ self.zfs = true›) sum)

theorem new_outline {config : Config} :
    Outline (setting config.chroot) (Returns fun _ _ => True) (new config) t := by
  refine (harmless_outline (harmless_quiet (quiet_unless _))).seq fun _ _ _ => ?_
  split
  · exact outline_raise trivial
  · exact init_outline.seq fun _ _ _ => outline_ret trivial

end Checks

section Listings

/-- A line of `mount -p`: the device, white space, and the mount point with what follows. -/
structure MountLine where
  device : List Char
  gap : List Char
  mountpoint : List Char
  rest : List Char
  device_word : device ≠ [] ∧ ∀ c ∈ device, isSpace c = false
  gap_space : gap ≠ [] ∧ ∀ c ∈ gap, isSpace c = true
  one_line : '\n' ∉ gap ++ mountpoint ++ rest

def MountLine.text (l : MountLine) : List Char := l.device ++ (l.gap ++ (l.mountpoint ++ l.rest))

theorem MountLine.newline_free (l : MountLine) : '\n' ∉ l.text := by
  have hone := l.one_line
  simp only [List.mem_append, not_or] at hone
  simp only [text, List.mem_append, not_or]
  refine ⟨fun h => ?_, hone.1.1, hone.1.2, hone.2⟩
  exact absurd (l.device_word.2 _ h) (by decide)

theorem prefix_takeWhile {f : Char → Bool} {p l : List Char} (h : p <+: l) (hp : ∀ c ∈ p, f c = true) :
    p <+: l.takeWhile f := by
  obtain ⟨rest, rfl⟩ := h
  rw [List.takeWhile_append_of_pos hp]
  exact List.prefix_append _ _

theorem MountLine.field {l : MountLine} {p : List Char} (hne : p ≠ []) (hp : ∀ c ∈ p, isSpace c = false)
    (h : p <+: l.mountpoint) : ∃ field, secondField l.text = some field ∧ p <+: field := by
  obtain ⟨c, cs, hcs⟩ := List.exists_cons_of_ne_nil hne
  obtain ⟨g, gs, hgs⟩ := List.exists_cons_of_ne_nil l.gap_space.1
  have hdevice : l.text.dropWhile (fun c => !isSpace c) = l.gap ++ (l.mountpoint ++ l.rest) := by
    unfold text
    rw [List.dropWhile_append_of_pos fun c hc => by simp [l.device_word.2 c hc], hgs]
    have hg : isSpace g = true := l.gap_space.2 g (by simp [hgs])
    simp [hg]
  have hprefix : p <+: l.mountpoint ++ l.rest := h.trans (List.prefix_append _ _)
  have hgap : (l.gap ++ (l.mountpoint ++ l.rest)).dropWhile isSpace = l.mountpoint ++ l.rest := by
    rw [List.dropWhile_append_of_pos l.gap_space.2]
    obtain ⟨rest, hrest⟩ := hprefix
    have hc : isSpace c = false := hp c (by simp [hcs])
    rw [← hrest, hcs]
    simp [hc]
  refine ⟨(l.mountpoint ++ l.rest).takeWhile fun c => !isSpace c, ?_,
    prefix_takeWhile hprefix fun c hc => by rw [hp c hc]; rfl⟩
  unfold secondField
  rw [hgs, List.cons_append] at hdevice hgap
  rw [hdevice]
  simp only [hgap]

theorem remaining_none {self : Chroot} (hroot : ∀ c ∈ (self.root ++ "/").toList, isSpace c = false)
    {output : String} (h : remaining self output = none) {lines : List MountLine}
    (hlines : output.toList = (lines.map MountLine.text).flatMap (· ++ ['\n'])) {l : MountLine}
    (hl : l ∈ lines) : ¬ (self.root ++ "/").toList <+: l.mountpoint := by
  intro hbelow
  have hne : (self.root ++ "/").toList ≠ [] := by simp
  obtain ⟨field, hfield, hprefix⟩ := l.field hne hroot hbelow
  have hline : l.text ∈ output.toList.splitOn '\n' := by
    rw [hlines]
    exact mem_lines (by simpa using fun l _ => l.newline_free) (List.mem_map_of_mem hl)
  have htext : l.text ≠ [] := by simp [MountLine.text, l.device_word.1]
  have hmem : field ∈ (split '\n' output.toList).filterMap secondField :=
    List.mem_filterMap.2 ⟨l.text, mem_split hline htext, hfield⟩
  exact List.find?_eq_none.1 h field hmem (List.isPrefixOf_iff_prefix.2 hprefix)

theorem unexpectedName_none {self : Chroot} {output : String} (h : unexpectedName self output = none)
    {name : List Char} (hname : name ∈ output.toList.splitOn '\n') (hne : name ≠ []) :
    name = (Dataset.worker.text self.toConfig).toList ∨ name = (Dataset.snapshot.text self.toConfig).toList := by
  have hmem : name ∈ (split '\n' output.toList).filter (· ≠ []) :=
    List.mem_filter.2 ⟨mem_split hname hne, by simpa using hne⟩
  have hnot := List.find?_eq_none.1 h name hmem
  by_contra hother
  exact hnot (by simpa [not_or] using hother)

theorem owned_output {output : String} (h : owned output = true) : chomp output = "1\tlocal" := by
  have hparts := splitOnce_eq (of_decide_eq_true h)
  exact String.toList_inj.1 hparts

end Listings

section Operations

inductive Operation where
  | new (config : Config)
  | delete (self : Chroot)

namespace Operation

def self : Operation → Chroot
  | new config => config.chroot
  | delete self => self

def prog : Operation → Perl Unit
  | new config => do
    let _ ← ChrootScript.new config
  | delete self => ChrootScript.delete self

/-- The object is one of `new`, or its copy after `do_chroot`. -/
def Accepted : Operation → Prop
  | new config => validateZfsConfig config = .ok ()
  | delete self => validateZfsConfig self.toConfig = .ok () ∧
      (self.root = self.toConfig.chroot.root ∨ self.root = "")

theorem Accepted.root_plain {op : Operation} (h : op.Accepted) (hzfs : op.self.zfs = true) :
    ∀ c ∈ (op.self.root ++ "/").toList, isSpace c = false := by
  cases op with
  | new config => exact ChrootNames.root_plain h hzfs
  | delete self =>
    rcases h with ⟨hconfig, hroot | hroot⟩
    · rw [Operation.self, hroot]
      exact ChrootNames.root_plain hconfig hzfs
    · rw [Operation.self, hroot]
      exact plain_of_any (by decide)

theorem outline (op : Operation) (t : Trace) :
    Outline (setting op.self) (Returns fun _ _ => True) op.prog t := by
  cases op with
  | new config => exact new_outline.seq fun _ _ _ => outline_ret trivial
  | delete self => exact delete_outline

end Operation

/-- What was captured before: who owns the dataset, where it is mounted, what is mounted
below that and what the dataset has. -/
structure Preceded (self : Chroot) (t : Trace) : Prop where
  ownership : Captured t (.zfsOwnership .worker) fun output => chomp output = "1\tlocal"
  mountpoint : Captured t (.zfsGet "mountpoint" .worker) fun output => chomp output = self.root
  unmounted : Captured t .mountTable fun output => ∀ lines : List MountLine,
    output.toList = (lines.map MountLine.text).flatMap (· ++ ['\n']) →
      ∀ l ∈ lines, ¬ (self.root ++ "/").toList <+: l.mountpoint
  contents : Captured t .zfsListAll fun output => ∀ name ∈ output.toList.splitOn '\n', name ≠ [] →
    name = (Dataset.worker.text self.toConfig).toList ∨ name = (Dataset.snapshot.text self.toConfig).toList

theorem Guarded.preceded {self : Chroot} {t : Trace}
    (hroot : self.zfs = true → ∀ c ∈ (self.root ++ "/").toList, isSpace c = false) (h : Guarded self t) :
    Preceded self t := by
  obtain ⟨hzfs, ⟨⟨out, howned, hown⟩, hmountpoint⟩, ⟨table, htable, hremaining⟩, list, hlist, hnames⟩ := h
  exact ⟨⟨out, howned, owned_output hown⟩, hmountpoint,
    ⟨table, htable, fun lines hlines l hl => remaining_none (hroot hzfs) hremaining hlines hl⟩,
    ⟨list, hlist, fun name hname hne => unexpectedName_none hnames hname hne⟩⟩

theorem allowed_argv {self : Chroot} {c : Command} (hdestroys : Destroys (c.argv self))
    (h : allowed (.run c) = true) : ∃ verb, c.argv self = ["/sbin/zfs", verb, Dataset.worker.text self.toConfig] ∨
      c.argv self = ["/sbin/zfs", verb, Dataset.snapshot.text self.toConfig] := by
  cases c with
  | zfsDestroy dataset =>
    simp only [allowed, Bool.or_eq_true, decide_eq_true_eq] at h
    rcases h with rfl | rfl
    · exact ⟨"destroy", .inl rfl⟩
    · exact ⟨"destroy", .inr rfl⟩
  | zfsRollback dataset =>
    simp only [allowed, Bool.or_eq_true, decide_eq_true_eq] at h
    rcases h with rfl | rfl
    · exact ⟨"rollback", .inl rfl⟩
    · exact ⟨"rollback", .inr rfl⟩
  | _ => simp [Destroys, Command.argv] at hdestroys

/-- In every run of `new` or `delete`, whatever the system answers: where it is about to
destroy a dataset or to roll one back, that is the worker's or its snapshot, and the four
checks of this very run have been passed. -/
theorem destruction_guarded {op : Operation} (accepted : op.Accepted) {t : Trace} {c : Command}
    {k : Except String (chroot.Res (.run c)) → Perl Unit}
    (run : Runs Answered op.prog [] (.call (.run c) k) t) (destroys : Destroys (c.argv op.self)) :
    (∃ verb, c.argv op.self = ["/sbin/zfs", verb, Dataset.worker.text op.self.toConfig] ∨
      c.argv op.self = ["/sbin/zfs", verb, Dataset.snapshot.text op.self.toConfig]) ∧
      Preceded op.self t := by
  rcases run.needed (op.outline []) with hharmless | ⟨hallowed, hguarded⟩
  · rw [not_harmless_of_destroys op.self destroys] at hharmless
    cases hharmless
  · exact ⟨allowed_argv destroys hallowed, hguarded.preceded accepted.root_plain⟩

end Operations

section Samples

def sampleChroot : Chroot :=
  ({ prefixDir := "/chroots", branch := "3.2", zfs := true, zfsDatasetRoot := "tank/magus", tarball := "/base.tar"
     loopbacks := [("/ports", "/usr/mports"), ("/sources", "/usr/src")] } : Config).chroot

/-- A system with the worker's dataset and its snapshot, and nothing mounted below it. -/
def settled (t : Trace) (o : Op) : Except String (chroot.Res o) × Trace :=
  let r : Except String (chroot.Res o) := match o with
    | .capture (.zfsList dataset) => .ok (0, dataset.text sampleChroot.toConfig ++ "\n")
    | .capture (.zfsOwnership _) => .ok (0, "1\tlocal\n")
    | .capture (.zfsGet property _) =>
      .ok (0, (if property = "mountpoint" then sampleChroot.root else "yes") ++ "\n")
    | .capture .zfsListAll => .ok (0, Dataset.worker.text sampleChroot.toConfig ++ "\n")
    | .capture _ => .ok (0, "tank\t\t/\tzfs rw 0 0\n")
    | .run _ => .ok (0 : ℤ)
    | _ => .error "not asked"
  (r, t ++ [⟨o, r⟩])

theorem delete_guarded : ∃ (t : Trace) (k : Except String (chroot.Res (.run (.zfsDestroy .snapshot))) → Perl Unit),
    Runs Answered (Operation.delete sampleChroot).prog [] (.call (.run (.zfsDestroy .snapshot)) k) t ∧
      Preceded sampleChroot t := by
  have accepted : (Operation.delete sampleChroot).Accepted :=
    ⟨by decide +kernel, .inl rfl⟩
  have answered : ∀ (t : Trace) (o : chroot.Op), Answered t o (settled t o).1 (settled t o).2 := fun _ _ => rfl
  have run := runs_advance answered 15 (Operation.delete sampleChroot).prog []
  have hpending : (advance settled 15 (Operation.delete sampleChroot).prog []).1.pending =
      some (.run (.zfsDestroy .snapshot)) := by decide +kernel
  generalize advance settled 15 (Operation.delete sampleChroot).prog [] = x at run hpending
  obtain ⟨p, t⟩ := x
  cases p with
  | call o k =>
    cases hpending
    exact ⟨t, k, run, (destruction_guarded accepted run (.inl rfl)).2⟩
  | _ => cases hpending

end Samples
end Mports.ZfsGuards
