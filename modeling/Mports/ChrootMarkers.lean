import Mports.ChrootFootprint
import Mports.ChrootWorld
import Mports.ProgramRuns

set_option autoImplicit false

namespace Mports.ChrootMarkers
open StatementPrograms ProgramRuns ChrootScript ChrootFootprint ChrootWorld

variable {B : Bootstraps}

section Invariant

def Blank (X : Tree) : Prop := X.checksum = none ∨ X.checksum = some ""

/-- What every point of every program leaves true: markers and checksums tell the truth. -/
structure Kept (t : Trees B) : Prop where
  refdir : ∀ X, t.refdir = some X → Blank X ∨ ∃ u : B.Tarball, X = reference u
  base : ∀ X, t.base = some X → X.clean = true → ∃ u : B.Tarball, X = reference u
  overlay : ∀ X, t.overlay = some X → X.clean = true → ∃ u : B.Tarball, X = reference u
  snapshot : ∀ X, t.snapshot = some X → ∃ u : B.Tarball, X = reference u

structure Standing (u : B.Tarball) (R : Option Tree) (t : Trees B) : Prop where
  kept : Kept t
  tarball : t.tarball = u
  refdir : t.refdir = R

abbrev Ready (u : B.Tarball) (t : Trees B) : Prop := Standing u (some (reference u)) t

structure Current (u : B.Tarball) (t : Trees B) : Prop where
  ready : Ready u t
  view : t.view = some (reference u)

theorem Kept.view {t : Trees B} (h : Kept t) {X : Tree} (hX : t.view = some X) (hclean : X.clean = true) :
    ∃ u : B.Tarball, X = reference u := by
  unfold Trees.view at hX
  cases hoverlay : t.overlay with
  | none => exact h.base X (by simpa [hoverlay] using hX) hclean
  | some Y => exact h.overlay X (by simpa [hoverlay] using hX) hclean

theorem Kept.setView {t : Trees B} (h : Kept t) {X : Tree}
    (hX : X.clean = true → ∃ u : B.Tarball, X = reference u) : Kept (t.setView X) := by
  unfold Trees.setView
  split
  · exact ⟨h.refdir, h.base, fun Y hY => by cases hY; exact hX, h.snapshot⟩
  · exact ⟨h.refdir, fun Y hY => by cases hY; exact hX, h.overlay, h.snapshot⟩

theorem Standing.setView {u : B.Tarball} {R : Option Tree} {t : Trees B} (h : Standing u R t) {X : Tree}
    (hX : X.clean = true → ∃ u : B.Tarball, X = reference u) : Standing u R (t.setView X) :=
  ⟨h.kept.setView hX, by simp [h.tarball], by simp [h.refdir]⟩

theorem Kept.unlink {t : Trees B} (h : Kept t) {m : Marker} (hm : m ≠ .checksum) :
    Kept (t.modify .root (·.unlink m)) := by
  simp only [Trees.modify]
  cases hview : t.view with
  | none => exact h
  | some X =>
    refine h.setView fun hclean => ?_
    cases m with
    | clean => cases hclean
    | checksum => exact absurd rfl hm
    | dirty | dead =>
      -- a clean tree has no other marker
      obtain ⟨v, rfl⟩ := h.view hview hclean
      exact ⟨v, rfl⟩

theorem Kept.modify {t : Trees B} (h : Kept t) {f : Tree → Tree} (hunclean : Unclean (t.modify .root f)) :
    Kept (t.modify .root f) := by
  have hview := modify_root_view t f
  unfold Trees.modify at hview hunclean ⊢
  cases hX : t.view with
  | none => exact h
  | some X =>
    refine h.setView fun hclean => ?_
    have hfalse := hunclean (f X) (by simp [hX])
    rw [hfalse] at hclean
    cases hclean

theorem Standing.modify {u : B.Tarball} {R : Option Tree} {t : Trees B} (h : Standing u R t) {f : Tree → Tree}
    (hkept : Kept (t.modify .root f)) : Standing u R (t.modify .root f) :=
  ⟨hkept, by simp [h.tarball], by simp [h.refdir]⟩

theorem chomp_line (text : String) : chomp (text ++ "\n") = text := by
  have hlast : (text ++ "\n").toList = text.toList ++ ['\n'] := by simp
  unfold chomp
  rw [hlast, if_pos (by simp), List.dropLast_concat, String.ofList_toList]

theorem reference_eq {u v : B.Tarball} (h : (reference v).checksum.map chomp = some (B.sum u)) :
    reference v = reference u := by
  simp only [reference, Option.map_some, chomp_line, Option.some.injEq] at h
  unfold reference
  rw [h, B.files_of_sum v u h]

theorem Blank.not_sum {X : Tree} (h : Blank X) (u : B.Tarball) : X.checksum.map chomp ≠ some (B.sum u) := by
  rcases h with h | h
  · simp [h]
  · have hempty : chomp "" = "" := by decide
    simpa [h, hempty] using (B.sum_ne u).symm

end Invariant

section Rules
variable {self : Chroot} {α β : Type}

/-- The state tells the truth where a statement is issued, and also where the process is
killed in the middle of it. -/
def Needed (w : World B) (o : Op) : Prop :=
  Kept w.toTrees ∧ ∀ u, Torn w o u → Told u o → Kept u.toTrees

abbrev setting (B : Bootstraps) (self : Chroot) : Setting chroot (World B) :=
  alone (Answered self) Needed

abbrev Leaves (Q : α → Trees B → Prop) : Exit chroot α → World B → Prop :=
  Ends (fun a w => Q a w.toTrees) (fun _ w => Kept w.toTrees) fun _ _ => True

def Lasts (self : Chroot) (J : Trees B → Prop) (o : Op) : Prop :=
  ∀ w : World B, J w.toTrees →
    J (w.act self o).2.toTrees ∧ ∀ u, Torn w o u → Told u o → Kept u.toTrees

theorem outline_ask {o : Op} {Q : chroot.Res o → Trees B → Prop} {w : World B} (hneeds : Needed w o)
    (hact : ∀ r, (w.act self o).1 = .ok r → Q r (w.act self o).2.toTrees)
    (hdies : ∀ e, (w.act self o).1 = .error e → Kept (w.act self o).2.toTrees)
    (hfails : ∀ r, Fails o (.ok r) → Q r w.toTrees) :
    Outline (setting B self) (Leaves Q) (ask o) w := by
  refine outline_issue hneeds (fun r u hu => ?_) fun e u hu => ?_
  · rcases hu with hu | ⟨rfl, hr⟩
    · obtain ⟨hr, rfl⟩ := Prod.mk.injEq .. ▸ hu
      exact hact r hr.symm
    · exact hfails r hr
  · rcases hu with hu | ⟨rfl, _⟩
    · obtain ⟨hr, rfl⟩ := Prod.mk.injEq .. ▸ hu
      exact hdies e hr.symm
    · exact hneeds.1

theorem lasts_ends {J : Trees B → Prop} (hJ : ∀ t, J t → Kept t) {P : Op → Prop} (hP : ∀ o, P o → Lasts self J o)
    {p : Perl α} (hp : Uses P (fun _ _ => True) p) {w : World B} (hw : J w.toTrees) :
    Outline (setting B self) (Ends (fun _ w => J w.toTrees) (fun _ w => J w.toTrees) fun _ _ => True) p w := by
  refine (Outline.of_uses (I := fun w : World B => J w.toTrees) (P := P) (A := fun _ _ => True) ?_ ?_ hp hw).mono ?_
  · intro o s t _ hs ht
    exact ht ▸ hs
  · intro o s ho hs
    refine ⟨⟨hJ _ hs, (hP o ho s hs).2⟩, fun r u hu => ⟨trivial, ?_⟩⟩
    rcases hu with hu | ⟨rfl, _⟩
    · obtain ⟨_, rfl⟩ := Prod.mk.injEq .. ▸ hu
      exact (hP o ho s hs).1
    · exact hs
  · intro x t ht
    cases x with
    | exit c => cases c
    | _ => exact ht

theorem lasts_outline {J : Trees B → Prop} (hJ : ∀ t, J t → Kept t) {P : Op → Prop} (hP : ∀ o, P o → Lasts self J o)
    {p : Perl α} (hp : Uses P (fun _ _ => True) p) {w : World B} (hw : J w.toTrees) :
    Outline (setting B self) (Leaves fun _ => J) p w :=
  (lasts_ends hJ hP hp hw).mono fun x t ht => by
    cases x with
    | raise e => exact hJ _ ht
    | _ => exact ht

theorem quiet_act {o : Op} (h : quiet o = true) (w : World B) : (w.act self o).2.toTrees = w.toTrees := by
  cases o with
  | run c =>
    cases c with
    | zfsCreate options dataset => cases dataset <;> first | rfl | cases h
    | umount | mdconfigAttach | mdconfigDetach => simp only [World.act, World.run]; split <;> rfl
    | _ => first | rfl | cases h
  | mkpath path => cases path <;> first | rfl | cases h
  | capture | fileExists | isDir | firstLine | entries | tarballChecksum | errno => rfl
  | _ => cases h

theorem quiet_torn {o : Op} (h : quiet o = true) (w u : World B) : ¬ Torn w o u := by
  cases o with
  | run c =>
    cases c with
    | tar => cases h
    | _ => exact id
  | rmtree | writeLine => cases h
  | _ => exact id

theorem quiet_lasts {o : Op} (h : quiet o = true) (J : Trees B → Prop) : Lasts self J o :=
  fun w hw => ⟨(quiet_act h w).symm ▸ hw, fun u hu => absurd hu (quiet_torn h w u)⟩

theorem quiet_outline {J : Trees B → Prop} (hJ : ∀ t, J t → Kept t) {p : Perl α} (hp : Quiet p) {w : World B}
    (hw : J w.toTrees) : Outline (setting B self) (Leaves fun _ => J) p w :=
  lasts_outline hJ (fun _ ho => quiet_lasts ho J) hp hw

/-- A statement that may replace the root, but not by anything that claims to be clean. -/
def mild : Op → Bool
  | .mkpath (.top .root) | .rmtree (.top .root) | .unlink (.marker .root .clean)
  | .unlink (.marker .root .dirty) | .unlink (.marker .root .dead) => true
  | .run (.zfsCreate ..) | .run (.zfsDestroy _) | .run .mountDisk | .run .umountDisk => true
  | o => quiet o

theorem Standing.of_emptied {u : B.Tarball} {R : Option Tree} {t t' : Trees B} (h : Standing u R t) (htarball : t'.tarball = t.tarball)
    (hrefdir : t'.refdir = t.refdir) (hbase : ∀ X, t'.base = some X → X = .empty ∨ t.base = some X)
    (hoverlay : ∀ X, t'.overlay = some X → X = .empty ∨ t.overlay = some X)
    (hsnapshot : ∀ X, t'.snapshot = some X → t.snapshot = some X) : Standing u R t' := by
  refine ⟨⟨?_, ?_, ?_, ?_⟩, htarball.trans h.tarball, hrefdir.trans h.refdir⟩
  · exact fun X hX => h.kept.refdir X (hrefdir ▸ hX)
  · intro X hX hclean
    rcases hbase X hX with rfl | hX
    · cases hclean
    · exact h.kept.base X hX hclean
  · intro X hX hclean
    rcases hoverlay X hX with rfl | hX
    · cases hclean
    · exact h.kept.overlay X hX hclean
  · exact fun X hX => h.kept.snapshot X (hsnapshot X hX)

theorem emptied_getD {x : Option Tree} {X : Tree} (h : some (x.getD .empty) = some X) : X = .empty ∨ x = some X := by
  cases x with
  | none => exact .inl (by simpa using h.symm)
  | some Y => exact .inr (by simpa using h)

theorem mild_lasts {o : Op} (h : mild o = true) (u : B.Tarball) (R : Option Tree) : Lasts self (Standing u R) o := by
  by_cases hquiet : quiet o = true
  · exact quiet_lasts hquiet (Standing u R)
  intro w hw
  cases o with
  | unlink path =>
    refine ⟨?_, fun u hu => by cases hu⟩
    cases path with
    | marker place m =>
      cases place with
      | root => exact hw.modify (hw.kept.unlink (by rintro rfl; cases h))
      | refdir => cases h
    | _ => cases h
  | mkpath path =>
    refine ⟨?_, fun u hu => by cases hu⟩
    cases path with
    | top place =>
      cases place with
      | refdir => cases h
      | root =>
        simp only [World.act]
        split
        · exact hw
        · exact hw.of_emptied rfl rfl (fun X hX => emptied_getD hX) (fun X hX => .inr hX) fun X hX => hX
    | _ => first | exact absurd rfl hquiet | cases h
  | rmtree path =>
    cases path with
    | top place =>
      cases place with
      | refdir => cases h
      | root =>
        refine ⟨?_, fun u ⟨X, Y, _, _, hu⟩ htold => ?_⟩
        rotate_left
        · subst hu
          exact hw.kept.modify htold
        simp only [World.act, World.rmtree]
        split
        · exact hw.of_emptied rfl rfl (fun X hX => .inr hX)
            (fun X hX => .inl (Option.some.inj hX).symm) fun X hX => hX
        split
        · exact hw.of_emptied rfl rfl (fun X hX => by cases hX) (fun X hX => .inr hX) fun X hX => hX
        · refine hw.of_emptied rfl rfl (fun X hX => .inl ?_) (fun X hX => .inr hX) fun X hX => hX
          obtain ⟨_, _, rfl⟩ := Option.map_eq_some_iff.1 hX
          rfl
    | _ => cases h
  | run c =>
    have htorn : ∀ u, ¬ Torn w (.run c) u := by
      intro u hu
      cases c with
      | tar => cases h
      | _ => cases hu
    refine ⟨?_, fun u hu => absurd hu (htorn u)⟩
    cases c with
    | zfsCreate options dataset =>
      cases dataset with
      | worker =>
        simp only [World.act, World.run]
        split
        · exact hw.of_emptied rfl rfl (fun X hX => emptied_getD hX)
            (fun X hX => .inl (Option.some.inj hX).symm) fun X hX => hX
        · exact hw
      | _ => exact absurd rfl hquiet
    | zfsDestroy dataset =>
      cases dataset with
      | snapshot =>
        simp only [World.act, World.run]
        split
        · exact hw.of_emptied rfl rfl (fun X hX => .inr hX) (fun X hX => .inr hX) fun X hX => by cases hX
        · exact hw
      | worker =>
        simp only [World.act, World.run]
        split
        · exact hw.of_emptied rfl rfl (fun X hX => .inr hX) (fun X hX => by cases hX) fun X hX => hX
        · exact hw
      | _ => exact hw
    | mountDisk =>
      simp only [World.act, World.run]
      split
      · exact hw.of_emptied rfl rfl (fun X hX => .inr hX)
          (fun X hX => .inl (Option.some.inj hX).symm) fun X hX => hX
      · exact hw
    | umountDisk =>
      simp only [World.act, World.run]
      split
      · exact hw.of_emptied rfl rfl (fun X hX => .inr hX) (fun X hX => by cases hX) fun X hX => hX
      · exact hw
    | _ => first | exact absurd rfl hquiet | cases h
  | _ => first | exact absurd rfl hquiet | cases h

abbrev Mild (p : Perl α) : Prop := Uses (fun o => mild o = true) (fun _ _ => True) p

theorem mild_outline {u : B.Tarball} {R : Option Tree} {p : Perl α} (hp : Mild p) {w : World B}
    (hw : Standing u R w.toTrees) : Outline (setting B self) (Leaves fun _ => Standing u R) p w :=
  lasts_outline (fun _ h => h.kept) (fun _ ho => mild_lasts ho u R) hp hw

theorem mild_quiet {p : Perl α} (hp : Quiet p) : Mild p :=
  hp.mono fun o ho => by
    cases o with
    | run c =>
      cases c with
      | zfsCreate options dataset => rfl
      | _ => first | exact ho | cases ho
    | mkpath path =>
      cases path with
      | top place => cases ho
      | _ => exact ho
    | _ => first | exact ho | cases ho

theorem question {o : Op} {J : Trees B → Prop} (hJ : ∀ t, J t → Kept t) (hquiet : quiet o = true)
    (hfails : ∀ r, ¬ Fails o (.ok r)) {w : World B} (hw : J w.toTrees) {r : chroot.Res o}
    (hr : (w.act self o).1 = .ok r) : Outline (setting B self) (Leaves fun r' t => r' = r ∧ J t) (ask o) w := by
  have hlasts : J (w.act self o).2.toTrees ∧ _ := quiet_lasts hquiet J w hw
  refine outline_ask ⟨hJ _ hw, hlasts.2⟩ (fun r' hr' => ?_)
    (fun e he => hJ _ hlasts.1) fun r' hr' => absurd hr' (hfails r')
  rw [hr] at hr'
  cases hr'
  exact ⟨rfl, hlasts.1⟩

theorem runOr_outline {c : Command} {message : String} {J : Trees B → Prop} {w : World B}
    (hneeds : Needed w (.run c)) (hdone : (w.run self c).1 = 0 → J (w.run self c).2.toTrees)
    (hfailed : (w.run self c).1 ≠ 0 → Kept (w.run self c).2.toTrees) :
    Outline (setting B self) (Leaves fun _ => J) (runOr c message) w := by
  have hsystem : Outline (setting B self)
      (Leaves fun (status : ℤ) t => (status = 0 → J t) ∧ (status ≠ 0 → Kept t)) (system c) w := by
    refine outline_ask hneeds (fun status hr => ?_) (fun e he => by cases he) fun status hr => ?_
    · cases hr
      exact ⟨hdone, hfailed⟩
    · have hstatus : status ≠ (0 : ℤ) := by
        intro hzero
        cases c <;> first | exact hr | (obtain ⟨st, hst, heq⟩ := hr; cases heq; exact hst hzero)
      exact ⟨fun hzero => absurd hzero hstatus, fun _ => hneeds.1⟩
  refine hsystem.seq fun status u hu => .when (fun hstatus => ?_) fun hstatus => ?_
  · exact outline_raise (hu.2 hstatus)
  · exact outline_ret (hu.1 (not_not.1 hstatus))

end Rules

end Mports.ChrootMarkers
