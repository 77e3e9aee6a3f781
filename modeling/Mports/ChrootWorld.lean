import Mathlib.Data.List.Dedup
import Mathlib.Logic.Function.Basic
import Mports.ChrootScript

set_option autoImplicit false

/-!
What Chroot.pm works on: the bootstrap, the reference directory, the root of one worker and
what is mounted there. Directories without files are left out.
-/
namespace Mports.ChrootWorld
open ChrootScript

/-- The files of a directory, by path below it, and the markers of Chroot.pm. -/
structure Tree where
  files : List (String × String)
  clean : Bool := false
  dirty : Bool := false
  dead : Bool := false
  /-- The first line of `.checksum`. -/
  checksum : Option String := none
  deriving DecidableEq, Repr

namespace Tree

def empty : Tree := { files := [] }

def marked (X : Tree) : Marker → Bool
  | .clean => X.clean
  | .dirty => X.dirty
  | .dead => X.dead
  | .checksum => X.checksum.isSome

def touch (X : Tree) : Marker → Tree
  | .clean => { X with clean := true }
  | .dirty => { X with dirty := true }
  | .dead => { X with dead := true }
  | .checksum => { X with checksum := some (X.checksum.getD "") }

def unlink (X : Tree) : Marker → Tree
  | .clean => { X with clean := false }
  | .dirty => { X with dirty := false }
  | .dead => { X with dead := false }
  | .checksum => { X with checksum := none }

def has (X : Tree) (path : String) : Bool := X.files.any fun f => f.1 = path

/-- What readdir lists at the top, but for `.` and `..`. -/
def names (X : Tree) : List String :=
  (([Marker.clean, .dirty, .dead, .checksum].filter X.marked).map Marker.text ++ X.files.map Prod.fst).map
    (fun path => ((path.splitOn "/").filter (· ≠ "")).headD "") |>.dedup

theorem names_eq_nil {X : Tree} : X.names = [] ↔ X = .empty := by
  rw [names, List.dedup_eq_nil, List.map_eq_nil_iff, List.append_eq_nil_iff, List.map_eq_nil_iff, List.map_eq_nil_iff,
    List.filter_eq_nil_iff]
  constructor
  · rintro ⟨hmarkers, hfiles⟩
    obtain ⟨files, clean, dirty, dead, checksum⟩ := X
    simpa [marked, empty] using And.intro hfiles hmarkers
  · rintro rfl
    exact ⟨by decide, rfl⟩

structure Remainder (X Y : Tree) : Prop where
  files : Y.files.Sublist X.files
  clean : Y.clean = true → X.clean = true
  dirty : Y.dirty = true → X.dirty = true
  dead : Y.dead = true → X.dead = true
  checksum : Y.checksum = none ∨ Y.checksum = X.checksum

end Tree

/-- The tarballs there are, with what `Digest::SHA` and tar make of them. -/
structure Bootstraps where
  Tarball : Type
  sum : Tarball → String
  files : Tarball → List (String × String)
  sum_ne : ∀ t, sum t ≠ ""
  files_of_sum : ∀ t u, sum t = sum u → files t = files u

variable {B : Bootstraps}

def reference (t : B.Tarball) : Tree :=
  { files := B.files t ++ [("/sys", "usr/src/sys")], clean := true, checksum := some (B.sum t ++ "\n") }

variable (B) in
structure Trees where
  tarball : B.Tarball
  refdir : Option Tree
  base : Option Tree
  /-- The worker's dataset or its memory disk, mounted on that. -/
  overlay : Option Tree
  snapshot : Option Tree

variable (B) in
structure World extends Trees B where
  branch : Bool
  disk : Bool
  /-- How often something is mounted at a directory below the root. -/
  mounts : String → ℕ
  /-- Whether the ports tree of the loopback has a Makefile. -/
  portsMakefile : Bool

def Trees.view (t : Trees B) : Option Tree := t.overlay.or t.base

def Trees.setView (t : Trees B) (X : Tree) : Trees B :=
  if t.overlay.isSome then { t with overlay := some X } else { t with base := some X }

def Trees.at (t : Trees B) : Place → Option Tree
  | .root => t.view
  | .refdir => t.refdir

def Trees.modify (t : Trees B) (place : Place) (f : Tree → Tree) : Trees B :=
  match place with
  | .root => match t.view with
    | none => t
    | some X => t.setView (f X)
  | .refdir => { t with refdir := t.refdir.map f }

section Root

@[simp] theorem setView_view (t : Trees B) (X : Tree) : (t.setView X).view = some X := by
  unfold Trees.setView Trees.view
  cases t.overlay <;> simp

@[simp] theorem setView_tarball (t : Trees B) (X : Tree) : (t.setView X).tarball = t.tarball := by
  unfold Trees.setView
  split <;> rfl

@[simp] theorem setView_refdir (t : Trees B) (X : Tree) : (t.setView X).refdir = t.refdir := by
  unfold Trees.setView
  split <;> rfl

@[simp] theorem modify_root_tarball (t : Trees B) (f : Tree → Tree) : (t.modify .root f).tarball = t.tarball := by
  simp only [Trees.modify]
  split
  · rfl
  · exact setView_tarball _ _

@[simp] theorem modify_root_refdir (t : Trees B) (f : Tree → Tree) : (t.modify .root f).refdir = t.refdir := by
  simp only [Trees.modify]
  split
  · rfl
  · exact setView_refdir _ _

theorem modify_root_view (t : Trees B) (f : Tree → Tree) : (t.modify .root f).view = t.view.map f := by
  cases hview : t.view with
  | none => simp only [Trees.modify, hview, Option.map_none]
  | some X => simp only [Trees.modify, hview, Option.map_some, setView_view]

def Unclean (t : Trees B) : Prop := ∀ X, t.view = some X → X.clean = false

theorem Unclean.modify {t : Trees B} {f : Tree → Tree} (hf : ∀ X, t.view = some X → (f X).clean = false) :
    Unclean (t.modify .root f) := by
  intro X hX
  rw [modify_root_view] at hX
  obtain ⟨Y, hY, rfl⟩ := Option.map_eq_some_iff.1 hX
  exact hf Y hY

theorem Unclean.touch {t : Trees B} (h : Unclean t) {m : Marker} (hm : m ≠ .clean) :
    Unclean (t.modify .root (·.touch m)) :=
  .modify fun X hX => by
    cases m with
    | clean => exact absurd rfl hm
    | _ => exact h X hX

theorem Unclean.unlink {t : Trees B} (h : Unclean t) (m : Marker) : Unclean (t.modify .root (·.unlink m)) :=
  .modify fun X hX => by
    cases m with
    | clean => rfl
    | _ => exact h X hX

theorem unclean_unlink (t : Trees B) : Unclean (t.modify .root (·.unlink .clean)) := .modify fun _ _ => rfl

end Root

section Answers
variable (self : Chroot)

/-- The directory that `"$root/$dst"` names. -/
def point (dst : String) : String := if dst.toList.head? = some '/' then dst else "/" ++ dst

/-- The directories that `_mount_loopbacks` mounts something at. -/
def points : List String :=
  self.loopbacks.map (fun x => point x.2) ++ auxiliary.map fun x => point x.2.2

namespace World
variable (w : World B)

def fileExists : Path → Bool
  | .top place => (w.at place).isSome
  | .marker place m => (w.at place).any (·.marked m)
  | .below place rel =>
    if place = .root ∧ rel = "/usr/mports/Makefile" ∧ 0 < w.mounts "/usr/mports" then w.portsMakefile
    else (w.at place).any fun X => rel = "/" || X.has rel
  | .branchDir => true

def isDir : Path → Bool
  | .top place => (w.at place).isSome
  | _ => true

def firstLine : Path → Option String
  | .marker place .checksum => (w.at place).bind Tree.checksum
  | _ => none

def entries : Path → List String
  | .top place => match w.at place with
    | none => []
    | some X => X.names
  | _ => []

def datasetExists : Dataset → Bool
  | .parent => true
  | .branch => w.branch
  | .worker => w.overlay.isSome
  | .snapshot => w.snapshot.isSome

def mountTable : String :=
  String.join <| ((points self).filter fun m => 0 < w.mounts m).map fun m =>
    "none\t\t\t" ++ self.root ++ m ++ "\tnullfs ro 0 0\n"

def captured : Command → ℕ × String
  | .zfsList dataset =>
    if w.datasetExists dataset then (0, dataset.text self.toConfig ++ "\n") else (1, "")
  | .zfsOwnership _ => (0, "1\tlocal\n")
  | .zfsGet property dataset =>
    (0, (if property = "mountpoint" then if dataset = .worker then self.root else "none"
      else if property = "canmount" then "off" else "yes") ++ "\n")
  | .zfsListAll => (0, Dataset.worker.text self.toConfig ++ "\n" ++
      if w.snapshot.isSome then Dataset.snapshot.text self.toConfig ++ "\n" else "")
  | .mountTable => (0, w.mountTable self)
  | _ => (0, "")

def mount (m : String) : World B := { w with mounts := Function.update w.mounts m (w.mounts m + 1) }

def umount (m : String) : World B := { w with mounts := Function.update w.mounts m (w.mounts m - 1) }

/-- The command where it is able to do what it is asked for, and 1 where it is not. -/
def run : Command → ℤ × World B
  | .cpdup => match w.refdir with
    | some R => (0, { w with toTrees := w.setView R })
    | none => (1, w)
  | .tar => (0, { w with toTrees := w.modify .refdir fun X => { X with files := X.files ++ B.files w.tarball } })
  | .umount dst => if 0 < w.mounts dst then (0, w.umount dst) else (1, w)
  | .mountNullfs _ dst => (0, w.mount (point dst))
  | .mountFs _ _ dir => (0, w.mount (point dir))
  | .zfsCreate _ .branch => (0, { w with branch := true })
  | .zfsCreate _ .worker =>
    if w.overlay.isNone then (0, { w with overlay := some .empty, base := some (w.base.getD .empty) })
    else (1, w)
  | .zfsDestroy .snapshot => if w.snapshot.isSome then (0, { w with snapshot := none }) else (1, w)
  | .zfsDestroy .worker =>
    if w.overlay.isSome ∧ w.snapshot.isNone then (0, { w with overlay := none }) else (1, w)
  | .zfsRollback .snapshot =>
    if w.snapshot.isSome then (0, { w with overlay := w.snapshot }) else (1, w)
  | .zfsSnapshot .snapshot =>
    if w.overlay.isSome ∧ w.snapshot.isNone then (0, { w with snapshot := w.overlay }) else (1, w)
  | .mdconfigAttach => if w.disk then (1, w) else (0, { w with disk := true })
  | .mdconfigDetach => if w.disk ∧ w.overlay.isNone then (0, { w with disk := false }) else (1, w)
  | .newfs => (if w.disk then 0 else 1, w)
  | .mountDisk =>
    if w.disk ∧ w.overlay.isNone ∧ w.base.isSome then (0, { w with overlay := some .empty }) else (1, w)
  | .umountDisk =>
    if w.overlay.isSome ∧ ∀ m ∈ points self, w.mounts m = 0 then (0, { w with overlay := none }) else (1, w)
  | _ => (0, w)

/-- A directory that something is mounted at stays, and so do the directories above it. -/
def rmtree : Place → World B
  | .refdir => { w with refdir := none }
  | .root =>
    if w.overlay.isSome then { w with overlay := some .empty }
    else if ∀ m ∈ points self, w.mounts m = 0 then { w with base := none }
    else { w with base := w.base.map fun _ => .empty }

def opened (place : Place) (m : Marker) : Except String Unit :=
  if (w.at place).isSome then .ok ()
  else .error ("Couldn't open " ++ place.text self ++ m.text ++ ": No such file or directory\n")

def act : (o : Op) → Except String (chroot.Res o) × World B
  | .capture c => (.ok (w.captured self c), w)
  | .run c => (.ok (w.run self c).1, (w.run self c).2)
  | .fileExists path => (.ok (w.fileExists path), w)
  | .isDir path => (.ok (w.isDir path), w)
  | .firstLine path => (.ok (w.firstLine path), w)
  | .entries path => (.ok (w.entries path), w)
  | .unlink (.marker place m) => (.ok (), { w with toTrees := w.modify place (·.unlink m) })
  | .unlink _ => (.ok (), w)
  | .touchfile (.marker place m) =>
    (w.opened self place m, { w with toTrees := w.modify place (·.touch m) })
  | .touchfile _ => (.ok (), w)
  | .writeLine (.marker place .checksum) line =>
    (w.opened self place .checksum,
      { w with toTrees := w.modify place fun X => { X with checksum := some (line ++ "\n") } })
  | .writeLine _ _ => (.ok (), w)
  | .mkpath (.top .refdir) => (.ok (), { w with refdir := some (w.refdir.getD .empty) })
  | .mkpath (.top .root) =>
    (.ok (), if w.overlay.isSome then w else { w with base := some (w.base.getD .empty) })
  | .mkpath _ => (.ok (), w)
  | .rmtree (.top place) => (.ok (if (w.at place).isSome then (1 : ℕ) else (0 : ℕ)), w.rmtree self place)
  | .rmtree _ => (.ok (0 : ℕ), w)
  | .symlink old (.below place rel) =>
    (.ok (), { w with toTrees := w.modify place fun X => { X with files := X.files ++ [(rel, old)] } })
  | .symlink _ _ => (.ok (), w)
  | .tarballChecksum => (.ok (B.sum w.tarball), w)
  | .errno => (.ok "", w)

end World

/-- How a statement may go wrong with nothing done. cpdup, rollbacks and snapshots do not. -/
def Fails : (o : Op) → Except String (chroot.Res o) → Prop
  | .capture _, _ => True
  | .run .cpdup, _ | .run (.zfsRollback _), _ | .run (.zfsSnapshot _), _ => False
  | .run _, r => ∃ status : ℤ, status ≠ 0 ∧ r = .ok status
  | .isDir (.below ..), r => ∃ b : Bool, r = .ok b
  | .errno, r => ∃ text : String, r = .ok text
  | .entries _, r | .touchfile _, r | .writeLine .., r | .mkpath _, r | .symlink .., r
  | .tarballChecksum, r => ∃ e, r = .error e
  | _, _ => False

def Answered (w : World B) (o : Op) (r : Except String (chroot.Res o)) (u : World B) : Prop :=
  (r, u) = w.act self o ∨ u = w ∧ Fails o r

/-- What is left where a process is killed in the middle of a statement that takes time. -/
def Torn (w : World B) : Op → World B → Prop
  | .rmtree (.top place), u => ∃ X Y, w.at place = some X ∧ X.Remainder Y ∧
      u = { w with toTrees := w.modify place fun _ => Y }
  | .run .tar, u => ∃ files, u = { w with toTrees := w.modify .refdir fun X => { X with files := files } }
  | .writeLine (.marker .refdir .checksum) _, u =>
    u = { w with toTrees := w.modify .refdir fun X => { X with checksum := some "" } }
  | _, _ => False

/-- What a removal that was cut short has left does not pass for the whole. -/
def Told (u : World B) : Op → Prop
  | .rmtree (.top .root) => Unclean u.toTrees
  | .rmtree (.top .refdir) => ∀ X, u.refdir = some X → X.checksum = none
  | _ => True

end Answers
end Mports.ChrootWorld
