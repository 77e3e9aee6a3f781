import Mports.ChrootScript

set_option autoImplicit false

namespace Mports.ChrootFootprint
open StatementPrograms ChrootScript

def quiet : Op → Bool
  | .capture _ | .fileExists _ | .isDir _ | .firstLine _ | .entries _ | .tarballChecksum | .errno
  | .mkpath (.below ..) | .mkpath .branchDir => true
  | .run c => match c with
    | .cpdup | .tar | .zfsCreate _ .worker | .zfsDestroy _ | .zfsRollback _ | .zfsSnapshot _ | .mountDisk
    | .umountDisk => false
    | _ => true
  | _ => false

abbrev Quiet {α : Type} (p : Perl α) : Prop := Uses (fun o => quiet o = true) (fun _ _ => True) p

section Questions
variable {self : Chroot}

theorem quiet_system {c : Command} (h : quiet (.run c) = true) : Quiet (system c) := Uses.issue h

theorem quiet_captureCommand (c : Command) : Quiet (captureCommand c) := Uses.issue rfl

theorem quiet_fileExists (path : Path) : Quiet (fileExists path) := Uses.issue rfl

theorem quiet_isDir (path : Path) : Quiet (isDir path) := Uses.issue rfl

theorem quiet_firstLine (path : Path) : Quiet (firstLine path) := Uses.issue rfl

theorem quiet_entries (path : Path) : Quiet (entries path) := Uses.issue rfl

theorem quiet_errno : Quiet errno := Uses.issue rfl

theorem quiet_tarballChecksum : Quiet tarballChecksum := Uses.issue rfl

theorem quiet_unless {c : Prop} [Decidable c] (message : String) : Quiet (Prog.when c (die message)) :=
  .when fun _ => Uses.raise _

theorem quiet_runOr {c : Command} (h : quiet (.run c) = true) (message : String) : Quiet (runOr c message) :=
  (quiet_system h).bind fun _ => quiet_unless _

theorem quiet_mustRun {c : Command} (h : quiet (.run c) = true) : Quiet (mustRun self c) := quiet_runOr h _

theorem quiet_zfsDatasetExists (dataset : Dataset) : Quiet (zfsDatasetExists self dataset) :=
  (quiet_captureCommand _).bind fun _ => Uses.pure _

theorem quiet_zfsGet (property : String) (dataset : Dataset) : Quiet (zfsGet self property dataset) :=
  (quiet_captureCommand _).bind fun _ => .ite (fun _ => Uses.raise _) fun _ => Uses.pure _

theorem quiet_assertZfsOwned (dataset : Dataset) : Quiet (assertZfsOwned self dataset) :=
  (quiet_captureCommand _).bind fun _ => (quiet_unless _).bind fun _ => quiet_unless _

theorem quiet_assertZfsWorkerDataset : Quiet (assertZfsWorkerDataset self) :=
  (quiet_assertZfsOwned .worker).bind fun _ => (quiet_zfsGet _ _).bind fun _ =>
    (quiet_unless _).bind fun _ => (quiet_zfsGet _ _).bind fun _ => .when fun _ => quiet_mustRun rfl

theorem quiet_assertZfsWorkerContents : Quiet (assertZfsWorkerContents self) := by
  refine (quiet_captureCommand _).bind fun (exit, output) => (quiet_unless _).bind fun _ => ?_
  split
  · exact Uses.raise _
  · exact Uses.pure _

theorem quiet_ensureZfsHierarchy : Quiet (ensureZfsHierarchy self) := by
  have hmkpath : Quiet (ask (.mkpath .branchDir)) := Uses.issue rfl
  refine (quiet_zfsDatasetExists _).bind fun _ => (quiet_unless _).bind fun _ =>
    (quiet_zfsDatasetExists _).bind fun _ => ?_
  split
  · refine Uses.bind ?_ fun _ => hmkpath
    exact (quiet_assertZfsOwned _).bind fun _ => (quiet_zfsGet _ _).bind fun _ =>
      (quiet_zfsGet _ _).bind fun _ => quiet_unless _
  · exact (quiet_mustRun rfl).bind fun _ => hmkpath

theorem quiet_rootMatchesReference (sum : String) : Quiet (rootMatchesReference sum) :=
  (quiet_firstLine _).bind fun _ => Uses.pure _

theorem quiet_cleanAndMatches (sum : String) : Quiet (cleanAndMatches sum) :=
  (quiet_fileExists _).bind fun _ => .ite (fun _ => quiet_rootMatchesReference sum) fun _ => Uses.pure _

theorem quiet_loopbackBroken : Quiet loopbackBroken :=
  (quiet_isDir _).bind fun _ => .ite (fun _ => (quiet_fileExists _).bind fun _ => Uses.pure _) fun _ => Uses.pure _

end Questions

section Mounts
variable {self : Chroot}

theorem quiet_mkdir (place : Place) (dir : String) : Quiet (mkdir place dir) := Uses.issue rfl

theorem quiet_mountLoopbacks : Quiet (mountLoopbacks self) := by
  refine Uses.bind (.forEach fun x _ => ?_) fun _ => .forEach fun x _ => ?_
  · exact (quiet_mkdir _ _).bind fun _ => quiet_runOr rfl _
  · exact (quiet_mkdir _ _).bind fun _ => (quiet_system rfl).bind fun _ => Uses.pure _

theorem quiet_umounts : Quiet (Prog.forEach (unmounted self) fun dst => do
    let _ ← system (.umount dst)) :=
  .forEach fun _ _ => (quiet_system rfl).bind fun _ => Uses.pure _

theorem quiet_unmountLoopbacks (strict : Bool) : Quiet (unmountLoopbacks self strict) := by
  refine quiet_umounts.bind fun _ => .when fun _ => (quiet_captureCommand _).bind fun (exit, output) =>
    (quiet_unless _).bind fun _ => ?_
  split
  · exact Uses.raise _
  · exact Uses.pure _

theorem quiet_clearFlagsPath (path : Path) : Quiet (clearFlagsPath path) :=
  (quiet_fileExists _).bind fun _ => .when fun _ => quiet_runOr rfl _

theorem quiet_mtree (file dir : String) : Quiet (ChrootScript.mtree self file dir) :=
  (quiet_system rfl).bind fun _ => quiet_unless _

theorem quiet_keepZfs (sum : String) : Quiet (keepZfs self sum) := by
  refine (quiet_cleanAndMatches sum).bind fun _ => (quiet_unless _).bind fun _ =>
    (quiet_fileExists _).bind fun _ => .when fun _ => ?_
  exact (quiet_unmountLoopbacks true).bind fun _ => quiet_mountLoopbacks

end Mounts
end Mports.ChrootFootprint
