import Mathlib.Data.List.Nodup
import Mports.ChrootWorld
import Mports.ProgramRuns

set_option autoImplicit false

namespace Mports.ChrootReplies
open StatementPrograms ProgramRuns ChrootScript ChrootWorld

variable {B : Bootstraps}

section Mounts

/-- The loopbacks have destinations of their own, and these are absolute. -/
structure Apart (c : Chroot) : Prop where
  slash : ∀ x ∈ c.loopbacks, point x.2 = x.2
  nodup : (points c).Nodup

variable (self : Chroot)

def Each (n : ℕ) (w : World B) : Prop := ∀ m ∈ points self, w.mounts m = n

def Most (w : World B) : Prop := ∀ m ∈ points self, w.mounts m ≤ 1

instance (n : ℕ) (w : World B) : Decidable (Each self n w) := inferInstanceAs (Decidable (∀ m ∈ points self, _))

instance (w : World B) : Decidable (Most self w) := inferInstanceAs (Decidable (∀ m ∈ points self, _))

def reply (w : World B) (o : chroot.Op) : Except chroot.Exn (chroot.Res o) × World B := w.act self o

def lowered (w : World B) (l : List String) : World B := { w with mounts := fun m => w.mounts m - l.count m }

def raised (w : World B) (l : List String) : World B := { w with mounts := fun m => w.mounts m + l.count m }

variable {self}

theorem run_umount (w : World B) (d : String) : (w.run self (.umount d)).2 = lowered w [d] := by
  by_cases h : 0 < w.mounts d
  · have hrun : (w.run self (.umount d)).2 = w.umount d := by simp only [World.run, h, if_true]
    rw [hrun, World.umount, lowered]
    congr 1
    funext m
    by_cases hm : m = d
    · simp [hm]
    · simp [hm, Ne.symm hm]
  · have hrun : (w.run self (.umount d)).2 = w := by simp only [World.run, h, if_false]
    have hmounts : w.mounts = fun m => w.mounts m - [d].count m := by
      funext m
      by_cases hm : m = d
      · subst hm
        omega
      · simp [Ne.symm hm]
    rw [hrun, lowered, ← hmounts]

theorem lowered_lowered (w : World B) (l k : List String) : lowered (lowered w l) k = lowered w (l ++ k) := by
  unfold lowered
  congr 1
  funext m
  rw [List.count_append, Nat.sub_sub]

theorem raised_raised (w : World B) (l k : List String) : raised (raised w l) k = raised w (l ++ k) := by
  unfold raised
  congr 1
  funext m
  rw [List.count_append, Nat.add_assoc]

theorem foldl_umount (w : World B) (l : List String) :
    l.foldl (fun w d => (w.run self (.umount d)).2) w = lowered w l := by
  induction l generalizing w with
  | nil => rfl
  | cons d l ih => rw [List.foldl_cons, ih, run_umount, lowered_lowered, List.singleton_append]

theorem each_of_raised (hapart : Apart self) {w : World B} :
    Each self 1 (raised w (points self)) ↔ Each self 0 w := by
  refine forall₂_congr fun m hm => ?_
  change w.mounts m + (points self).count m = 1 ↔ _
  rw [List.count_eq_one_of_mem hapart.nodup hm]
  omega

theorem count_unmounted (hapart : Apart self) (m : String) : (unmounted self).count m = (points self).count m := by
  have hauxiliary : (auxiliary.map fun x => point x.2.2).Perm
      ["/dev", "/proc", "/compat/linux/proc", "/compat/linux/sys", "/compat/linux/dev/fd", "/compat/linux/dev"] := by
    decide +kernel
  have hloopbacks : self.loopbacks.map (fun x => point x.2) = self.loopbacks.map Prod.snd :=
    List.map_congr_left hapart.slash
  unfold unmounted points
  rw [List.count_append, List.count_append, hauxiliary.count_eq, hloopbacks, Nat.add_comm]

theorem each_of_lowered (hapart : Apart self) {w : World B} :
    Each self 0 (lowered w (unmounted self)) ↔ Most self w := by
  refine forall₂_congr fun m hm => ?_
  change w.mounts m - (unmounted self).count m = 0 ↔ _
  rw [count_unmounted hapart, List.count_eq_one_of_mem hapart.nodup hm]
  omega

end Mounts

section Statements
variable {self : Chroot} {w : World B}

theorem attains_run {c : Command} {Q : ℤ → World B → Prop} :
    Attains (reply self) Q (system c) w ↔ Q (w.run self c).1 (w.run self c).2 :=
  Iff.rfl

theorem attains_capture {c : Command} {Q : ℕ × String → World B → Prop} :
    Attains (reply self) Q (captureCommand c) w ↔ Q (w.captured self c) w :=
  Iff.rfl

theorem attains_unless {c : Prop} [Decidable c] (h : ¬ c) {message : String} {Q : Unit → World B → Prop} :
    Attains (reply self) Q (Prog.when c (die message)) w ↔ Q () w := by
  rw [attains_when, if_neg h]

theorem attains_runOr {c : Command} {message : String} {Q : Unit → World B → Prop} :
    Attains (reply self) Q (runOr c message) w ↔ (w.run self c).1 = 0 ∧ Q () (w.run self c).2 := by
  rw [runOr, attains_bind, attains_run, attains_when]
  split
  · rename_i h
    exact ⟨False.elim, fun hQ => absurd hQ.1 h⟩
  · rename_i h
    exact ⟨fun hQ => ⟨not_not.1 h, hQ⟩, And.right⟩

theorem attains_mountLoopbacks {Q : Unit → World B → Prop} :
    Attains (reply self) Q (mountLoopbacks self) w ↔ Q () (raised w (points self)) := by
  have hmount : ∀ (w : World B) (m : String), w.mount m = raised w [m] := by
    intro w m
    unfold World.mount raised
    congr 1
    funext x
    by_cases h : x = m
    · simp [h]
    · simp [h, Ne.symm h]
  have hloopback : ∀ (Q : Unit → World B → Prop) (x : String × String) w,
      Attains (reply self) Q (do
        mkdir .root x.2
        runOr (.mountNullfs x.1 x.2) "mount returned non-zero: ") w ↔ Q () (raised w [point x.2]) := by
    intro Q x w
    have hmkdir : ∀ {Q : Unit → World B → Prop}, Attains (reply self) Q (mkdir .root x.2) w ↔ Q () w := Iff.rfl
    rw [attains_bind, hmkdir, attains_runOr, ← hmount]
    exact and_iff_right rfl
  have hfs : ∀ (Q : Unit → World B → Prop) (x : String × String × String) w,
      Attains (reply self) Q (do
        mkdir .root x.2.2
        let _ ← system (.mountFs x.1 x.2.1 x.2.2)) w ↔ Q () (raised w [point x.2.2]) := by
    intro Q x w
    rw [← hmount]
    exact Iff.rfl
  have hfold : ∀ (l : List String) (w : World B), l.foldl (fun w m => raised w [m]) w = raised w l := by
    intro l
    induction l with
    | nil => exact fun w => rfl
    | cons m l ih => exact fun w => by rw [List.foldl_cons, ih, raised_raised, List.singleton_append]
  refine attains_bind.trans ((attains_forEach hloopback).trans ((attains_forEach hfs).trans ?_))
  have hloopbacks : self.loopbacks.foldl (fun w x => raised w [point x.2]) w =
      raised w (self.loopbacks.map fun x => point x.2) := by
    rw [← hfold, List.foldl_map]
  have hauxiliary : ∀ w : World B, auxiliary.foldl (fun w x => raised w [point x.2.2]) w =
      raised w (auxiliary.map fun x => point x.2.2) := by
    intro w
    rw [← hfold, List.foldl_map]
  rw [hloopbacks, hauxiliary, raised_raised]
  exact Iff.rfl

theorem remaining_of_each (h : Each self 0 w) : remaining self (w.mountTable self) = none := by
  have hfilter : (points self).filter (fun m => 0 < w.mounts m) = [] := by
    refine List.filter_eq_nil_iff.2 fun m hm => ?_
    simp [h m hm]
  unfold World.mountTable
  rw [hfilter]
  rfl

theorem attains_unmountLoopbacks (strict : Bool) {Q : Unit → World B → Prop} :
    Attains (reply self) Q (unmountLoopbacks self strict) w ↔
      (strict = true → remaining self ((lowered w (unmounted self)).mountTable self) = none) ∧
        Q () (lowered w (unmounted self)) := by
  have humount : ∀ (Q : Unit → World B → Prop) (dst : String) w, Attains (reply self) Q (do
      let _ ← system (.umount dst)) w ↔ Q () (w.run self (.umount dst)).2 := fun _ _ _ => Iff.rfl
  refine attains_bind.trans ((attains_forEach humount).trans ?_)
  rw [foldl_umount, attains_when]
  split
  · rename_i hstrict
    have htable : ∀ v : World B, v.captured self .mountTable = (0, v.mountTable self) := fun v => rfl
    rw [attains_bind, attains_capture, htable, attains_bind, attains_unless (by decide)]
    split
    · rename_i hsome
      exact ⟨False.elim, fun h => by rw [h.1 hstrict] at hsome; cases hsome⟩
    · rename_i hnone
      exact ⟨fun h => ⟨fun _ => hnone, h⟩, And.right⟩
  · rename_i hstrict
    exact ⟨fun h => ⟨fun hs => absurd hs hstrict, h⟩, And.right⟩

theorem attains_strict {α : Type} (hapart : Apart self) {p : Perl α} {Q : α → World B → Prop} {C : Prop}
    (hp : Attains (reply self) Q p (lowered w (unmounted self)) ↔ Each self 0 (lowered w (unmounted self)) ∧ C) :
    Attains (reply self) Q (do unmountLoopbacks self true; p) w ↔ Most self w ∧ C := by
  rw [attains_bind, attains_unmountLoopbacks, hp, ← each_of_lowered hapart]
  exact ⟨And.right, fun h => ⟨fun _ => remaining_of_each h.1, h⟩⟩

theorem attains_fileExists {path : Path} {Q : Bool → World B → Prop} :
    Attains (reply self) Q (fileExists path) w ↔ Q (w.fileExists path) w :=
  Iff.rfl

theorem attains_clearFlagsPath {path : Path} {Q : Unit → World B → Prop} :
    Attains (reply self) Q (clearFlagsPath path) w ↔ Q () w := by
  rw [clearFlagsPath, attains_bind, attains_fileExists, attains_when]
  split
  · rw [attains_runOr]
    exact and_iff_right rfl
  · exact Iff.rfl

end Statements

section Reference
variable {self : Chroot} {α β : Type}

def Fills (B : Bootstraps) (self : Chroot) (p : Perl α) : Prop :=
  ∀ (w : World B) (X : Tree), ∃ a Y, ∀ Q : α → World B → Prop,
    Attains (reply self) Q p { w with refdir := some X } ↔ Q a { w with refdir := some Y }

theorem Fills.seq {p : Perl α} {g : α → Perl β} (hp : Fills B self p) (hg : ∀ a, Fills B self (g a)) :
    Fills B self (p >>= g) := by
  intro w X
  obtain ⟨a, Y, hp⟩ := hp w X
  obtain ⟨b, Z, hg⟩ := hg a w Y
  exact ⟨b, Z, fun Q => attains_bind.trans ((hp _).trans (hg Q))⟩

theorem Fills.when {c : Prop} [Decidable c] {p : Perl Unit} (hp : Fills B self p) : Fills B self (Prog.when c p) := by
  unfold Prog.when
  split
  · exact hp
  · exact fun w X => ⟨(), X, fun Q => Iff.rfl⟩

theorem Fills.forEach {g : β → Perl Unit} (hg : ∀ x, Fills B self (g x)) (xs : List β) :
    Fills B self (Prog.forEach xs g) := by
  induction xs with
  | nil => exact fun w X => ⟨(), X, fun Q => Iff.rfl⟩
  | cons x xs ih => exact (hg x).seq fun _ => ih

theorem fills_mkdir (dir : String) : Fills B self (mkdir .refdir dir) := fun _ X => ⟨(), X, fun _ => Iff.rfl⟩

theorem fills_mtree (file dir : String) : Fills B self (ChrootScript.mtree self file dir) := fun _ X =>
  ⟨(), X, fun _ => attains_bind.trans (attains_unless (not_not.2 rfl))⟩

theorem fills_buildReference (self : Chroot) (sum : String) : Fills B self (buildReference self sum) := by
  have hmkpath : Fills B self (ask (.mkpath (.top .refdir))) := fun w X => ⟨(), X, fun _ => Iff.rfl⟩
  have htar : Fills B self (runOr .tar "Couldn't untar root tarball: ") := fun w X =>
    ⟨(), _, fun Q => attains_runOr.trans (and_iff_right rfl)⟩
  have hsymlink : Fills B self (ask (.symlink "usr/src/sys" (.below .refdir "/sys"))) := fun w X =>
    ⟨(), _, fun _ => Iff.rfl⟩
  have hisDir : Fills B self (isDir (.below .refdir "/tmp")) := fun w X => ⟨true, X, fun _ => Iff.rfl⟩
  have htouch : Fills B self (ask (.touchfile (.marker .refdir .clean))) := fun w X => ⟨(), _, fun _ => Iff.rfl⟩
  have hwrite : Fills B self (ask (.writeLine (.marker .refdir .checksum) sum)) := fun w X =>
    ⟨(), _, fun _ => Iff.rfl⟩
  exact hmkpath.seq fun _ => htar.seq fun _ => hsymlink.seq fun _ => (fills_mtree _ _).seq fun _ =>
    (fills_mtree _ _).seq fun _ => (fills_mtree _ _).seq fun _ => hisDir.seq fun _ => (fills_mkdir _).when.seq fun _ =>
      (Fills.forEach fills_mkdir _).seq fun _ => (fills_mkdir _).seq fun _ => (fills_mtree _ _).seq fun _ =>
        (fills_mtree _ _).when.seq fun _ => htouch.seq fun _ => hwrite

theorem attains_createReferenceDir (self : Chroot) (w : World B) : ∃ R, ∀ Q : String → World B → Prop,
    Attains (reply self) Q (createReferenceDir self) w ↔ Q (B.sum w.tarball) { w with refdir := some R } := by
  have hchecksum : ∀ {Q : String → World B → Prop},
      Attains (reply self) Q tarballChecksum w ↔ Q (B.sum w.tarball) w := Iff.rfl
  have hline : ∀ {Q : Option String → World B → Prop},
      Attains (reply self) Q (firstLine (.marker .refdir .checksum)) w ↔ Q (w.refdir.bind Tree.checksum) w := Iff.rfl
  have hrmtree : ∀ {Q : ℕ → World B → Prop}, Attains (reply self) Q (rmtree (.top .refdir)) w ↔
      Q (if w.refdir.isSome then 1 else 0) { w with refdir := none } := Iff.rfl
  by_cases hcurrent : (w.refdir.bind Tree.checksum).map chomp = some (B.sum w.tarball)
  · cases hrefdir : w.refdir with
    | none => simp [hrefdir] at hcurrent
    | some X =>
      have hw : { w with refdir := some X } = w := by rw [← hrefdir]
      refine ⟨X, fun Q => ?_⟩
      rw [createReferenceDir, attains_bind, hchecksum, attains_bind, hline, if_pos hcurrent, hw]
      exact Iff.rfl
  · let v : World B := { w with refdir := none }
    obtain ⟨_, R, hbuild⟩ := fills_buildReference self (B.sum w.tarball) v .empty
    refine ⟨R, fun Q => ?_⟩
    rw [createReferenceDir, attains_bind, hchecksum, attains_bind, hline, if_neg hcurrent, attains_bind,
      attains_fileExists, attains_bind]
    have hremoved : ∀ {Q : Unit → World B → Prop}, Attains (reply self) Q
        (Prog.when (w.fileExists (.top .refdir) = true) do
          clearFlagsPath (.top .refdir)
          let _ ← rmtree (.top .refdir)
          let left ← fileExists (.top .refdir)
          Prog.when (left = true) do
            let errno ← errno
            die ("Couldn't delete " ++ self.refdir ++ ": " ++ errno ++ "\n")) w ↔ Q () v := by
      intro Q
      rw [attains_when]
      split
      · rw [attains_bind, attains_clearFlagsPath, attains_bind, hrmtree, attains_bind, attains_fileExists]
        exact Iff.rfl
      · rename_i hnone
        have hw : v = w := by
          have hrefdir : w.refdir = none := Option.not_isSome_iff_eq_none.1 hnone
          change { w with refdir := none } = w
          rw [← hrefdir]
        rw [hw]
    rw [hremoved, attains_bind]
    exact hbuild _

end Reference

end Mports.ChrootReplies
