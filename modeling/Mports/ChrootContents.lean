import Mports.ChrootMarkers

set_option autoImplicit false

namespace Mports.ChrootContents
open StatementPrograms ProgramRuns ChrootScript ChrootFootprint ChrootWorld ChrootMarkers

variable {B : Bootstraps} {α : Type}

section Reference
variable {self : Chroot} {t₀ : Trees B}

/-- The trees of the start, but for the reference directory. -/
def At (t₀ : Trees B) (R : Option Tree) (t : Trees B) : Prop := t = { t₀ with refdir := R }

theorem At.kept {R : Option Tree} {t : Trees B} (h₀ : Kept t₀)
    (hR : ∀ X, R = some X → Blank X ∨ ∃ u : B.Tarball, X = reference u) (h : At t₀ R t) : Kept t := by
  subst h
  exact ⟨hR, h₀.base, h₀.overlay, h₀.snapshot⟩

theorem blank_some {X : Tree} (h : Blank X) :
    ∀ Y, some X = some Y → Blank Y ∨ ∃ u : B.Tarball, Y = reference u := by
  intro Y hY
  cases hY
  exact .inl h

theorem At.refdir {R : Option Tree} {w : World B} (h : At t₀ R w.toTrees) : w.refdir = R := by
  rw [show w.refdir = w.toTrees.refdir from rfl, h]

theorem At.tarball {R : Option Tree} {w : World B} (h : At t₀ R w.toTrees) : w.tarball = t₀.tarball := by
  rw [show w.tarball = w.toTrees.tarball from rfl, h]

theorem At.set {R : Option Tree} {t : Trees B} (h : At t₀ R t) (S : Option Tree) :
    At t₀ S { t with refdir := S } := by
  subst h
  rfl

theorem At.modify {X : Tree} {t : Trees B} (h : At t₀ (some X) t) (f : Tree → Tree) :
    At t₀ (some (f X)) (t.modify .refdir f) := by
  subst h
  rfl

theorem refdir_ask {o : Op} {R S : Option Tree} {w : World B} (h₀ : Kept t₀)
    (hR : ∀ X, R = some X → Blank X ∨ ∃ u : B.Tarball, X = reference u) (hw : At t₀ R w.toTrees)
    (htorn : ∀ u, Torn w o u → Told u o → Kept u.toTrees) {r : chroot.Res o}
    (hr : (w.act self o).1 = .ok r) (hat : At t₀ S (w.act self o).2.toTrees) (hfails : ∀ r, ¬ Fails o (.ok r)) :
    Outline (setting B self) (Leaves fun _ => At t₀ S) (ask o) w := by
  refine outline_ask ⟨hw.kept h₀ hR, htorn⟩ (fun _ _ => hat) (fun e he => ?_) fun r' hr' => absurd hr' (hfails r')
  rw [hr] at he
  cases he

theorem buildReference_outline (h₀ : Kept t₀) {w : World B} (hw : At t₀ none w.toTrees) :
    Outline (setting B self) (Leaves fun _ => At t₀ (some (reference t₀.tarball)))
      (buildReference self (B.sum t₀.tarball)) w := by
  have hquiet : ∀ {X : Tree} {β : Type} {p : Perl β} {w : World B}, Blank X → Quiet p → At t₀ (some X) w.toTrees →
      Outline (setting B self) (Leaves fun _ => At t₀ (some X)) p w := fun hX hp hw =>
    quiet_outline (fun _ h => h.kept h₀ (blank_some hX)) hp hw
  have hmtree : ∀ file dir, Quiet (ChrootScript.mtree self file dir) := quiet_mtree
  have hmkdir : ∀ dir, Quiet (mkdir .refdir dir) := fun dir => quiet_mkdir _ dir
  let files := B.files t₀.tarball ++ [("/sys", "usr/src/sys")]
  have hempty : Blank .empty := .inl rfl
  have hunmarked : ∀ files clean, Blank { files := files, clean := clean } := fun _ _ => .inl rfl
  -- an empty directory, the files of the tarball, and a symbolic link
  have hmkpath : Outline (setting B self) (Leaves fun _ => At t₀ (some .empty)) (ask (.mkpath (.top .refdir))) w := by
    refine refdir_ask h₀ (fun X hX => by cases hX) hw (fun u hu => by cases hu) rfl ?_ (by simp [Fails])
    change At t₀ (some .empty) { w.toTrees with refdir := some (w.refdir.getD .empty) }
    rw [hw.refdir]
    exact hw.set _
  refine hmkpath.seq fun _ w hw => ?_
  have htar : Outline (setting B self) (Leaves fun _ => At t₀ (some { files := B.files t₀.tarball }))
      (runOr .tar "Couldn't untar root tarball: ") w := by
    refine runOr_outline ⟨hw.kept h₀ (blank_some hempty), ?_⟩ (fun _ => ?_) fun h => absurd rfl h
    · rintro u ⟨files, rfl⟩ _
      exact (hw.modify _).kept h₀ (blank_some (.inl rfl))
    · change At t₀ _ (w.modify .refdir fun X => { X with files := X.files ++ B.files w.tarball })
      rw [hw.tarball]
      exact hw.modify _
  refine htar.seq fun _ w hw => ?_
  have hsymlink : Outline (setting B self) (Leaves fun _ => At t₀ (some { files := files }))
      (ask (.symlink "usr/src/sys" (.below .refdir "/sys"))) w :=
    refdir_ask h₀ (blank_some (hunmarked _ _)) hw (fun u hu => by cases hu) rfl (hw.modify _) (by simp [Fails])
  refine hsymlink.seq fun _ w hw => ?_
  -- directories only
  refine (hquiet (hunmarked _ _) (hmtree _ _) hw).seq fun _ w hw => ?_
  refine (hquiet (hunmarked _ _) (hmtree _ _) hw).seq fun _ w hw => ?_
  refine (hquiet (hunmarked _ _) (hmtree _ _) hw).seq fun _ w hw => ?_
  refine (hquiet (hunmarked _ _) (quiet_isDir _) hw).seq fun _ w hw => ?_
  refine (hquiet (hunmarked _ _) (.when fun _ => hmkdir _) hw).seq fun _ w hw => ?_
  refine (hquiet (hunmarked _ _) (.forEach fun _ _ => hmkdir _) hw).seq fun _ w hw => ?_
  refine (hquiet (hunmarked _ _) (hmkdir _) hw).seq fun _ w hw => ?_
  refine (hquiet (hunmarked _ _) (hmtree _ _) hw).seq fun _ w hw => ?_
  refine (hquiet (hunmarked _ _) (.when fun _ => hmtree _ _) hw).seq fun _ w hw => ?_
  -- the markers, the checksum last
  have hopened : ∀ {X : Tree} {w : World B} (m : Marker), At t₀ (some X) w.toTrees → w.opened self .refdir m = .ok () := by
    intro X w m hw
    have hsome : (w.at .refdir).isSome = true := by
      rw [show w.at .refdir = w.refdir from rfl, hw.refdir]
      rfl
    simp only [World.opened, hsome, if_true]
  have htouch : Outline (setting B self) (Leaves fun _ => At t₀ (some { files := files, clean := true }))
      (ask (.touchfile (.marker .refdir .clean))) w :=
    refdir_ask h₀ (blank_some (hunmarked _ _)) hw (fun u hu => by cases hu) (hopened _ hw) (hw.modify _) (by simp [Fails])
  refine htouch.seq fun _ w hw => ?_
  refine refdir_ask h₀ (blank_some (hunmarked _ _)) hw ?_ (hopened _ hw) (hw.modify _) (by simp [Fails])
  rintro u rfl _
  exact (hw.modify _).kept h₀ (blank_some (.inr rfl))

theorem createReferenceDir_outline (h₀ : Kept t₀) {w : World B} (hw : w.toTrees = t₀) :
    Outline (setting B self)
      (Leaves fun sum t => sum = B.sum t₀.tarball ∧ At t₀ (some (reference t₀.tarball)) t)
      (createReferenceDir self) w := by
  have hat : At t₀ t₀.refdir w.toTrees := hw
  have hkept : ∀ t, At t₀ t₀.refdir t → Kept t := fun t h => h.kept h₀ h₀.refdir
  have hsum : w.tarball = t₀.tarball := hat.tarball
  refine (question hkept (o := .tarballChecksum) rfl (fun _ ⟨_, h⟩ => by cases h) hat rfl).seq fun sum w hw => ?_
  obtain ⟨rfl, hw⟩ := hw
  refine (question hkept (o := .firstLine (.marker .refdir .checksum)) rfl (fun _ => id) hw rfl).seq
    fun line w' hw' => ?_
  obtain ⟨rfl, hw'⟩ := hw'
  have hline : w.firstLine (.marker .refdir .checksum) = t₀.refdir.bind Tree.checksum :=
    congrArg (Option.bind · Tree.checksum) hw.refdir
  rw [hline, hsum]
  split
  · rename_i hcurrent
    -- its checksum is the tarball's, so it is the tarball's directory
    refine outline_ret ⟨rfl, ?_⟩
    cases hrefdir : t₀.refdir with
    | none => simp [hrefdir] at hcurrent
    | some X =>
      rw [hrefdir] at hcurrent hw'
      rcases h₀.refdir X hrefdir with hblank | ⟨v, rfl⟩
      · exact absurd hcurrent (hblank.not_sum _)
      · rwa [reference_eq hcurrent] at hw'
  · refine (question hkept (o := .fileExists (.top .refdir)) rfl (fun _ => id) hw' rfl).seq fun found u hu => ?_
    obtain ⟨rfl, hu⟩ := hu
    have hremoved : Outline (setting B self) (Leaves fun _ => At t₀ none)
        (Prog.when (w'.fileExists (.top .refdir) = true) do
          clearFlagsPath (.top .refdir)
          let _ ← rmtree (.top .refdir)
          let left ← fileExists (.top .refdir)
          Prog.when (left = true) do
            let errno ← errno
            die ("Couldn't delete " ++ self.refdir ++ ": " ++ errno ++ "\n")) u := by
      refine .when (fun _ => ?_) fun hnone => outline_ret ?_
      · refine (quiet_outline hkept (quiet_clearFlagsPath _) hu).seq fun _ u hu => ?_
        have htorn : ∀ v, Torn u (.rmtree (.top .refdir)) v → Told v (.rmtree (.top .refdir)) → Kept v.toTrees := by
          rintro v ⟨X, Y, hX, _, rfl⟩ htold
          have hrefdir : t₀.refdir = some X := hu.refdir.symm.trans hX
          have hv := (hrefdir ▸ hu).modify fun _ => Y
          exact hv.kept h₀ (blank_some (.inl (htold Y hv.refdir)))
        have hrmtree : Outline (setting B self) (Leaves fun _ => At t₀ none) (rmtree (.top .refdir)) u :=
          refdir_ask h₀ h₀.refdir hu htorn rfl (hu.set none) fun _ => id
        refine hrmtree.seq fun _ u hu => ?_
        have hkept : ∀ t, At t₀ none t → Kept t := fun t h => h.kept h₀ fun X hX => by cases hX
        refine (question hkept (o := .fileExists (.top .refdir)) rfl (fun _ => id) hu rfl).seq fun left v hv => ?_
        obtain ⟨rfl, hv⟩ := hv
        have hleft : u.fileExists (.top .refdir) = false := by
          rw [show u.fileExists (.top .refdir) = u.refdir.isSome from rfl, hu.refdir]
          rfl
        refine .when (fun h => ?_) fun _ => outline_ret hv
        rw [hleft] at h
        cases h
      · rw [show w'.fileExists (.top .refdir) = w'.refdir.isSome from rfl, hw'.refdir] at hnone
        rwa [Option.not_isSome_iff_eq_none.1 hnone] at hu
    refine hremoved.seq fun _ u hu => ?_
    exact (buildReference_outline h₀ hu).seq fun _ u hu => outline_ret ⟨rfl, hu⟩

end Reference

section Root
variable {self : Chroot} {u : B.Tarball}

theorem current_kept (t : Trees B) (h : Current u t) : Kept t := h.ready.kept

theorem mount_outline {w : World B} (hw : Current u w.toTrees) :
    Outline (setting B self) (Leaves fun _ => Current u) (mountLoopbacks self) w :=
  quiet_outline current_kept quiet_mountLoopbacks hw

theorem syncReferenceDir_outline {w : World B} (hw : Ready u w.toTrees) :
    Outline (setting B self) (Leaves fun _ => Current u) syncReferenceDir w := by
  have hrun : w.run self .cpdup = (0, { w with toTrees := w.setView (reference u) }) := by
    simp only [World.run, show w.refdir = some (reference u) from hw.refdir]
  refine runOr_outline ⟨hw.kept, fun u hu => by cases hu⟩ (fun _ => ?_) fun h => ?_
  · rw [hrun]
    exact ⟨hw.setView fun _ => ⟨u, rfl⟩, setView_view _ _⟩
  · rw [hrun] at h
    exact absurd rfl h

theorem createZfsSnapshot_outline {w : World B} (hw : Current u w.toTrees) :
    Outline (setting B self) (Leaves fun _ => Current u) (createZfsSnapshot self) w := by
  refine (quiet_outline current_kept (quiet_zfsDatasetExists _) hw).seq fun _ w hw => ?_
  refine (quiet_outline current_kept (quiet_unless _) hw).seq fun _ w hw => ?_
  refine runOr_outline ⟨current_kept _ hw, fun u hu => by cases hu⟩ (fun h => ?_) fun h => ?_
  · simp only [World.run] at h ⊢
    split at h
    · rename_i hsome
      rw [if_pos hsome]
      have hsnapshot : ∀ X, w.overlay = some X → ∃ v : B.Tarball, X = reference v := by
        intro X hX
        have hview := hw.view
        simp only [Trees.view, hX, Option.some_or, Option.some.injEq] at hview
        exact ⟨u, hview⟩
      exact ⟨⟨⟨hw.ready.kept.refdir, hw.ready.kept.base, hw.ready.kept.overlay, hsnapshot⟩, hw.ready.tarball,
        hw.ready.refdir⟩, hw.view⟩
    · cases h
  · simp only [World.run] at h ⊢
    split at h
    · exact absurd rfl h
    · rename_i hnone
      rw [if_neg hnone]
      exact current_kept _ hw

theorem fill_outline {w : World B} (hw : Ready u w.toTrees) : Outline (setting B self) (Leaves fun _ => Current u)
    (do syncReferenceDir; createZfsSnapshot self; mountLoopbacks self) w :=
  (syncReferenceDir_outline hw).seq fun _ _ hw => (createZfsSnapshot_outline hw).seq fun _ _ hw => mount_outline hw

theorem mild_runOr {c : Command} (h : mild (.run c) = true) (message : String) : Mild (runOr c message) :=
  Uses.bind (Uses.issue h) fun _ => mild_quiet (quiet_unless _)

theorem mild_destroyWorker : Mild (destroyWorker self) :=
  (mild_quiet quiet_assertZfsWorkerDataset).bind fun _ => (mild_quiet (quiet_unmountLoopbacks true)).bind fun _ =>
    (mild_quiet quiet_assertZfsWorkerContents).bind fun _ => (mild_quiet (quiet_zfsDatasetExists .snapshot)).bind fun _ =>
      (Uses.when fun _ => mild_runOr rfl _).bind fun _ => mild_runOr rfl _

theorem mild_delete : Mild (delete self) := by
  have hrmtree : Mild (rmtree (.top .root)) := Uses.issue rfl
  refine .ite (fun _ => ?_) fun _ => (mild_quiet (quiet_unmountLoopbacks false)).bind fun _ => .ite (fun _ => ?_) fun _ => ?_
  · exact (mild_quiet (quiet_zfsDatasetExists _)).bind fun _ => .when fun _ => mild_destroyWorker
  · exact (mild_runOr rfl _).bind fun _ => mild_quiet (quiet_runOr rfl _)
  · exact (mild_quiet (quiet_clearFlagsPath _)).bind fun _ => hrmtree.bind fun _ => .when fun _ =>
      (mild_quiet quiet_errno).bind fun _ => Uses.raise _

theorem cleanAndMatches_outline {w : World B} (hw : Ready u w.toTrees) :
    Outline (setting B self)
      (Leaves fun (matching : Bool) t => Ready u t ∧ (matching = true → Current u t))
      (cleanAndMatches (B.sum u)) w := by
  have hkept : ∀ t, t = w.toTrees → Kept t := fun t ht => ht ▸ hw.kept
  refine (question hkept (o := .fileExists (.marker .root .clean)) rfl (fun _ => id) rfl rfl).seq fun clean v hv => ?_
  obtain ⟨rfl, hv⟩ := hv
  split
  · rename_i hclean
    refine (question hkept (o := .firstLine (.marker .root .checksum)) rfl (fun _ => id) hv rfl).seq fun line v' hv' => ?_
    obtain ⟨rfl, hv'⟩ := hv'
    refine outline_ret ⟨hv' ▸ hw, fun hmatching => ?_⟩
    obtain ⟨X, hX, hXclean⟩ := (Option.any_eq_true _ _).1 hclean
    change w.view = some X at hX
    obtain ⟨t, rfl⟩ := hw.kept.view hX hXclean
    have hline : v.firstLine (.marker .root .checksum) = (reference t).checksum := by
      change v.toTrees.view.bind _ = _
      rw [hv, hX, Option.bind_some]
    rw [decide_eq_true_iff, hline] at hmatching
    exact ⟨hv' ▸ hw, by rw [hv', hX, reference_eq hmatching]⟩
  · exact outline_ret ⟨hv ▸ hw, fun h => by cases h⟩

end Root

section Zfs
variable {self : Chroot} {u : B.Tarball} {C : Prop}

theorem ensureZfsWorkerDataset_outline {J : Trees B → Prop} (hJ : ∀ t, J t → Ready u t) {w : World B} (hw : J w.toTrees) :
    Outline (setting B self) (Leaves fun (created : Bool) t => Ready u t ∧ (created = false → J t))
      (ensureZfsWorkerDataset self) w := by
  have hempty : Mild (do
      let entries ← entries (.top .root)
      Prog.when (entries ≠ []) <|
        die ("Refusing to mount a ZFS chroot over non-empty " ++ self.root ++ ".\n")) :=
    mild_quiet ((quiet_entries _).bind fun _ => quiet_unless _)
  refine (quiet_outline (fun t ht => (hJ t ht).kept) (quiet_zfsDatasetExists _) hw).seq fun found v hv => ?_
  split
  · exact outline_ret ⟨hJ _ hv, fun _ => hv⟩
  · refine (mild_outline (mild_quiet (quiet_isDir _)) (hJ _ hv)).seq fun _ v hv => ?_
    refine (mild_outline (.when fun _ => hempty) hv).seq fun _ v hv => ?_
    refine (mild_outline (mild_runOr rfl _) hv).seq fun _ v hv => ?_
    refine (mild_outline (mild_quiet quiet_assertZfsWorkerDataset) hv).seq fun _ v hv => ?_
    exact outline_ret ⟨hv, fun h => by cases h⟩

theorem refreshZfsBaseline_outline {w : World B} (hw : Ready u w.toTrees) :
    Outline (setting B self) (Leaves fun _ => Current u) (refreshZfsBaseline self) w := by
  refine (mild_outline (mild_quiet (quiet_zfsDatasetExists _)) hw).seq fun _ v hv => ?_
  refine (mild_outline (.when fun _ => mild_destroyWorker) hv).seq fun _ v hv => ?_
  refine (ensureZfsWorkerDataset_outline (fun _ => id) hv).seq fun _ v hv => ?_
  exact fill_outline hv.1

structure Restorable (u : B.Tarball) (C : Prop) (t : Trees B) : Prop where
  ready : Ready u t
  snapshot : C → ∀ S, t.snapshot = some S → S = reference u

theorem cleanZfs_outline {w : World B} (hw : Restorable u C w.toTrees) :
    Outline (setting B self) (Leaves fun _ t => Ready u t ∧ (C → Current u t)) (cleanZfs self) w := by
  have hkept : ∀ t, Restorable u C t → Kept t := fun t ht => ht.ready.kept
  refine (quiet_outline hkept (quiet_unmountLoopbacks true) hw).seq fun _ v hv => ?_
  refine (quiet_outline hkept quiet_assertZfsWorkerContents hv).seq fun _ v hv => ?_
  have hrollback : Outline (setting B self) (Leaves fun _ t => Ready u t ∧ (C → Current u t))
      (mustRun self (.zfsRollback .snapshot)) v := by
    refine runOr_outline ⟨hkept _ hv, fun u hu => by cases hu⟩ (fun h => ?_) fun h => ?_
    · simp only [World.run] at h ⊢
      split at h
      · rename_i hsome
        rw [if_pos hsome]
        obtain ⟨S, hS⟩ := Option.isSome_iff_exists.1 hsome
        have hkept := hv.ready.kept
        have hready : Ready u { v.toTrees with overlay := v.snapshot } :=
          ⟨⟨hkept.refdir, hkept.base, fun X hX _ => hkept.snapshot X hX, hkept.snapshot⟩, hv.ready.tarball,
            hv.ready.refdir⟩
        refine ⟨hready, fun hC => ⟨hready, ?_⟩⟩
        change v.snapshot.or v.base = some (reference u)
        rw [show v.snapshot = some S from hS, hv.snapshot hC S hS, Option.some_or]
      · cases h
    · simp only [World.run] at h ⊢
      split at h
      · exact absurd rfl h
      · rename_i hnone
        rw [if_neg hnone]
        exact hkept _ hv
  refine hrollback.seq fun _ v hv => ?_
  exact quiet_outline (J := fun t => Ready u t ∧ (C → Current u t)) (fun t ht => ht.1.kept) quiet_mountLoopbacks hv

theorem keepZfs_outline {w : World B} (hw : Ready u w.toTrees) :
    Outline (setting B self) (Leaves fun _ => Current u) (keepZfs self (B.sum u)) w := by
  refine (cleanAndMatches_outline hw).seq fun matching v hv => ?_
  have hmatching : Outline (setting B self) (Leaves fun _ => Current u)
      (Prog.when (matching = false) <|
        die ("ZFS chroot " ++ self.root ++ " does not match the current bootstrap.\n")) v := by
    refine .when (fun _ => outline_raise hv.1.kept) fun h => outline_ret ?_
    exact hv.2 (Bool.not_eq_false _ ▸ h)
  refine hmatching.seq fun _ v hv => ?_
  refine (quiet_outline current_kept (quiet_fileExists _) hv).seq fun _ v hv => .when (fun _ => ?_) fun _ => outline_ret hv
  exact quiet_outline current_kept ((quiet_unmountLoopbacks true).bind fun _ => quiet_mountLoopbacks) hv

/-- A root that is marked as dirty can be brought back from the snapshot. -/
def Rollable (u : B.Tarball) (t : Trees B) : Prop :=
  ∀ X S, t.view = some X → X.dirty = true → t.snapshot = some S → S = reference u

theorem reuseZfs_outline {w : World B} (hready : Ready u w.toTrees) (hC : C → Rollable u w.toTrees) :
    Outline (setting B self) (Leaves fun _ t => Ready u t ∧ (C → Current u t)) (reuseZfs self (B.sum u)) w := by
  let J (t : Trees B) : Prop := t = w.toTrees
  have hJ : ∀ t, J t → Kept t := fun t ht => ht ▸ hready.kept
  have hcurrent : ∀ t, Current u t → Ready u t ∧ (C → Current u t) := fun t ht => ⟨ht.ready, fun _ => ht⟩
  refine (quiet_outline (J := J) hJ quiet_assertZfsWorkerDataset rfl).seq fun _ v hv => ?_
  refine (quiet_outline hJ (quiet_zfsDatasetExists _) hv).seq fun _ v hv => ?_
  refine (quiet_outline hJ (quiet_unless _) hv).seq fun _ v hv => ?_
  refine (question hJ (o := .fileExists (.marker .root .dirty)) rfl (fun _ => id) hv rfl).seq fun dirty v' hv' => ?_
  obtain ⟨rfl, hv'⟩ := hv'
  split
  · rename_i hdirty
    obtain ⟨X, hX, hXdirty⟩ := (Option.any_eq_true _ _).1 hdirty
    change v.view = some X at hX
    rw [hv] at hX
    exact cleanZfs_outline ⟨hv' ▸ hready, fun h S hS => hC h X S hX hXdirty (hv' ▸ hS)⟩
  · refine (mild_outline (mild_quiet (quiet_fileExists _)) (hv' ▸ hready)).seq fun dead v hv => ?_
    split
    · exact (refreshZfsBaseline_outline hv).returns fun _ _ => hcurrent _
    · exact (keepZfs_outline hv).returns fun _ _ => hcurrent _

theorem initZfs_outline {w : World B} (hready : Ready u w.toTrees)
    (hC : C → self.refreshSnapshot = false → Rollable u w.toTrees) :
    Outline (setting B self) (Leaves fun _ t => Ready u t ∧ (C → Current u t)) (initZfs self (B.sum u)) w := by
  let J (t : Trees B) : Prop := Ready u t ∧ (C → self.refreshSnapshot = false → Rollable u t)
  have hJ : ∀ t, J t → Kept t := fun t ht => ht.1.kept
  have hcurrent : ∀ t, Current u t → Ready u t ∧ (C → Current u t) := fun t ht => ⟨ht.ready, fun _ => ht⟩
  refine (quiet_outline (J := J) hJ quiet_ensureZfsHierarchy ⟨hready, hC⟩).seq fun _ v hv => ?_
  split
  · exact (refreshZfsBaseline_outline hv.1).returns fun _ _ => hcurrent _
  · rename_i hrefresh
    refine (ensureZfsWorkerDataset_outline (fun t (ht : J t) => ht.1) hv).seq fun created v hv => ?_
    split
    · exact (fill_outline hv.1).returns fun _ _ => hcurrent _
    · rename_i hcreated
      have hv' := hv.2 (Bool.not_eq_true _ ▸ hcreated)
      exact reuseZfs_outline hv'.1 fun h => hv'.2 h (Bool.not_eq_true _ ▸ hrefresh)

end Zfs

section Cpdup
variable {self : Chroot} {u : B.Tarball}

theorem fillRoot_outline {w : World B} (hw : Ready u w.toTrees) :
    Outline (setting B self) (Leaves fun _ => Current u) (fillRoot self) w := by
  have hmkpath : Mild (ask (.mkpath (.top .root))) := Uses.issue rfl
  have hdisk : Mild (Prog.when (self.memoryDisk = true) do
      runOr .mdconfigAttach "Couldn't create memory disk: "
      runOr .newfs "Couldn't newfs memory disk: "
      runOr .mountDisk "Couldn't mount memory disk: ") :=
    .when fun _ => (mild_runOr rfl _).bind fun _ => (mild_runOr rfl _).bind fun _ => mild_runOr rfl _
  refine (mild_outline hmkpath hw).seq fun _ v hv => ?_
  refine (mild_outline hdisk hv).seq fun _ v hv => ?_
  exact (syncReferenceDir_outline hv).seq fun _ _ hv => mount_outline hv

theorem clean_outline (hzfs : self.zfs = false) {w : World B} (hw : Ready u w.toTrees) :
    Outline (setting B self) (Leaves fun _ => Current u) (clean self) w := by
  simp only [clean, hzfs]
  refine (mild_outline (mild_quiet (quiet_unmountLoopbacks true)) hw).seq fun _ v hv => ?_
  refine (mild_outline (mild_quiet (quiet_clearFlagsPath _)) hv).seq fun _ v hv => ?_
  exact (syncReferenceDir_outline hv).seq fun _ _ hv => mount_outline hv

theorem touch_outline {u : B.Tarball} {R : Option Tree} {m : Marker} (hm : m ≠ .clean) {w : World B}
    (hw : Standing u R w.toTrees ∧ Unclean w.toTrees) :
    Outline (setting B self) (Leaves fun _ t => Standing u R t ∧ Unclean t) (ask (.touchfile (.marker .root m))) w := by
  have hunclean := hw.2.touch hm
  have hkept := hw.1.modify (hw.1.kept.modify hunclean)
  refine outline_ask ⟨hw.1.kept, fun u hu => by cases hu⟩ (fun _ _ => ⟨hkept, hunclean⟩) (fun _ _ => hkept.kept) ?_
  rintro r ⟨e, he⟩
  cases he

theorem renewRoot_outline (hzfs : self.zfs = false) {w : World B} (hw : Ready u w.toTrees) :
    Outline (setting B self) (Leaves fun _ => Current u) (renewRoot self) w := by
  refine (mild_outline (mild_quiet (quiet_fileExists _)) hw).seq fun clean v hv => ?_
  have hdirty : Outline (setting B self) (Leaves fun _ => Ready u)
      (Prog.when (clean = true) do
        ask (.unlink (.marker .root .clean))
        ask (.touchfile (.marker .root .dirty))) v := by
    refine .when (fun _ => ?_) fun _ => outline_ret hv
    have hunclean := unclean_unlink v.toTrees
    have hunlinked : Ready u _ := hv.modify (hv.kept.modify hunclean)
    have hunlink : Outline (setting B self) (Leaves fun _ t => Ready u t ∧ Unclean t)
        (ask (.unlink (.marker .root .clean))) v :=
      outline_ask ⟨hv.kept, fun u hu => by cases hu⟩ (fun _ _ => ⟨hunlinked, hunclean⟩) (fun _ _ => hunlinked.kept)
        fun _ => False.elim
    exact hunlink.seq fun _ v hv => (touch_outline (by decide) hv).returns fun _ _ ht => ht.1
  refine hdirty.seq fun _ v hv => ?_
  refine (mild_outline (mild_quiet (quiet_fileExists _)) hv).seq fun dirty v hv => ?_
  split
  · exact clean_outline hzfs hv
  · refine (mild_outline (mild_quiet (quiet_fileExists _)) hv).seq fun dead v hv => ?_
    refine (mild_outline (.when fun _ => mild_delete) hv).seq fun _ v hv => ?_
    exact fillRoot_outline hv

theorem initCpdup_outline (hzfs : self.zfs = false) {w : World B} (hw : Ready u w.toTrees) :
    Outline (setting B self) (Leaves fun _ => Current u) (initCpdup self (B.sum u)) w := by
  refine (mild_outline (mild_quiet quiet_loopbackBroken) hw).seq fun broken v hv => ?_
  refine (mild_outline (.when fun _ => mild_delete) hv).seq fun _ v hv => ?_
  refine (cleanAndMatches_outline hv).seq fun matching v hv => .when (fun _ => ?_) fun h => outline_ret ?_
  · exact renewRoot_outline hzfs hv.1
  · exact hv.2 (Bool.not_eq_false _ ▸ h)

end Cpdup

section Calls
variable {config : Config}

/-- A dirty dataset that is to be rolled back has a snapshot with the checksum of the tarball. -/
def Fresh (config : Config) (t : Trees B) : Prop :=
  config.zfs = true → config.refreshSnapshot = false →
    ∀ X S, t.view = some X → X.dirty = true → t.snapshot = some S → S.checksum.map chomp = some (B.sum t.tarball)

theorem Fresh.rollable {t : Trees B} (h : Fresh config t) (hkept : Kept t) (hzfs : config.zfs = true)
    (hrefresh : config.refreshSnapshot = false) : Rollable t.tarball t := by
  intro X S hX hdirty hS
  obtain ⟨v, rfl⟩ := hkept.snapshot S hS
  exact reference_eq (h hzfs hrefresh X _ hX hdirty hS)

/-- What is known of the trees when a call of `new` has come to its end. -/
structure Prepared (config : Config) (t₀ t : Trees B) : Prop where
  kept : Kept t
  tarball : t.tarball = t₀.tarball
  current : Fresh config t₀ → t.view = some (reference t₀.tarball)

theorem init_outline {w : World B} (hw : Kept w.toTrees) :
    Outline (setting B config.chroot) (Leaves fun _ => Prepared config w.toTrees) (init config.chroot) w := by
  refine (createReferenceDir_outline hw rfl).seq fun sum v hv => ?_
  obtain ⟨rfl, hat⟩ := hv
  have hready : Ready w.tarball v.toTrees :=
    ⟨hat.kept hw fun X hX => .inr ⟨w.tarball, (Option.some.inj hX).symm⟩, hat.tarball, hat.refdir⟩
  have hfresh : Fresh config w.toTrees → config.zfs = true → config.refreshSnapshot = false →
      Rollable w.tarball v.toTrees := by
    intro h hzfs hrefresh
    rw [hat]
    exact h.rollable hw hzfs hrefresh
  split
  · rename_i hzfs
    refine (initZfs_outline hready fun h => hfresh h hzfs).returns fun _ t ht => ?_
    exact ⟨ht.1.kept, ht.1.tarball, fun h => (ht.2 h).view⟩
  · rename_i hzfs
    refine (initCpdup_outline (Bool.not_eq_true _ ▸ hzfs) hready).returns fun _ t ht => ?_
    exact ⟨ht.ready.kept, ht.ready.tarball, fun _ => ht.view⟩

theorem new_outline {w : World B} (hw : Kept w.toTrees) :
    Outline (setting B config.chroot) (Leaves fun _ => Prepared config w.toTrees) (new config) w := by
  have hquiet : Quiet (Prog.when (truthy config.tarball = false)
      (die "Magus::Chroot->new(): No tarball given.\n")) := quiet_unless _
  refine (quiet_outline (J := (· = w.toTrees)) (fun t ht => ht ▸ hw) hquiet rfl).seq fun _ v hv => ?_
  split
  · exact outline_raise (hv ▸ hw)
  · exact (hv ▸ init_outline (hv ▸ hw)).seq fun _ _ hv => outline_ret hv

section Marks
variable {self : Chroot} {m other : Marker}

/-- What is true while nothing at the root claims to be clean. -/
structure Marked (t : Trees B) : Prop where
  kept : Kept t
  unclean : Unclean t

theorem Marked.unlink {t : Trees B} (h : Kept t) : Marked (t.modify .root (·.unlink .clean)) :=
  ⟨h.modify (unclean_unlink t), unclean_unlink t⟩

/-- A marker other than `.clean` is taken away or put there. -/
def Marks (o : Op) : Prop :=
  ∃ m : Marker, m ≠ .clean ∧ (o = .unlink (.marker .root m) ∨ o = .touchfile (.marker .root m))

theorem marks_lasts {o : Op} (h : Marks o) : Lasts (B := B) self Marked o := by
  intro w hw
  obtain ⟨m, hm, rfl | rfl⟩ := h
  · have hunclean := hw.unclean.unlink m
    exact ⟨⟨hw.kept.modify hunclean, hunclean⟩, fun u hu => by cases hu⟩
  · have hunclean := hw.unclean.touch hm
    exact ⟨⟨hw.kept.modify hunclean, hunclean⟩, fun u hu => by cases hu⟩

theorem mark_outline (hother : other ≠ .clean) (hm : m ≠ .clean) {w : World B} (hw : Kept w.toTrees) :
    Outline (setting B self)
      (Ends (fun _ w => Marked w.toTrees) (fun _ w => Marked w.toTrees) fun _ _ => True)
      (do
        ask (.unlink (.marker .root .clean))
        ask (.unlink (.marker .root other))
        ask (.touchfile (.marker .root m))) w := by
  have hunlink : Outline (setting B self)
      (Ends (fun _ w => Marked w.toTrees) (fun _ w => Marked w.toTrees) fun _ _ => True)
      (ask (.unlink (.marker .root .clean))) w := by
    refine outline_issue ⟨hw, fun u hu => by cases hu⟩ (fun r u hu => ?_) fun e u hu => ?_
    · rcases hu with hu | ⟨_, hr⟩
      · obtain ⟨_, rfl⟩ := Prod.mk.injEq .. ▸ hu
        exact .unlink hw
      · exact hr.elim
    · rcases hu with hu | ⟨_, hr⟩
      · obtain ⟨hr, _⟩ := Prod.mk.injEq .. ▸ hu
        cases hr
      · exact hr.elim
  have hrest : Uses Marks (fun _ _ => True) (do
      ask (.unlink (.marker .root other))
      ask (.touchfile (.marker .root m))) :=
    Uses.bind (Uses.issue ⟨other, hother, .inl rfl⟩) fun _ => Uses.issue ⟨m, hm, .inr rfl⟩
  exact hunlink.seq fun _ v hv => lasts_ends (fun _ h => h.kept) (fun _ => marks_lasts) hrest hv

end Marks

theorem delete_outline {self : Chroot} {w : World B} (hw : Kept w.toTrees) :
    Outline (setting B self) (Leaves fun _ => Kept) (delete self) w := by
  have hstanding : Standing w.tarball w.refdir w.toTrees := ⟨hw, rfl, rfl⟩
  exact (mild_outline mild_delete hstanding).returns fun _ _ ht => ht.kept

end Calls
end Mports.ChrootContents
