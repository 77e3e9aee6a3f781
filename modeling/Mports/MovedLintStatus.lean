import Mports.MovedLint

set_option autoImplicit false

namespace Mports.MovedLintStatus
open MovedLint

def FlavorKnown (tree : Tree) (line : Line) : Prop :=
  dest line ≠ [] → tree.hasMakefile (origin (dest line)) → flavor (dest line) ≠ [] →
    tree.hasFlavor (origin (dest line)) (flavor (dest line))

/-- Nothing is wrong with a line by itself. -/
structure Sound (tree : Tree) (line : Line) : Prop where
  format : formatFault line = none
  flavor : FlavorKnown tree line
  reason : (reason line).getLast? ≠ some '.'

/-- The source is in the tree, with its flavor if it has one. -/
def Resurrected (tree : Tree) (line : Line) : Prop :=
  tree.hasMakefile (origin (source line)) ∧
    (flavor (source line) = [] ∨ tree.hasFlavor (origin (source line)) (flavor (source line)))

/-- No line has anything wrong with it, no source comes twice, and the dates do not go backwards. -/
structure Orderly (tree : Tree) (s : State) (lines : List (Line × ℕ)) : Prop where
  sound : ∀ l ∈ lines, Sound tree l.1
  distinct : (lines.map fun l => source l.1).Nodup
  new : ∀ l ∈ lines, source l.1 ∉ s.srcs
  dates : (s.lastdate :: lines.map fun l => date l.1).IsChain fun a b => ¬ b < a

/-- Each destination is in the tree or has a later line for its origin. -/
def Found (tree : Tree) (lines : List (Line × ℕ)) : Prop :=
  ∀ before l after, lines = before ++ l :: after → dest l.1 ≠ [] →
    tree.hasMakefile (origin (dest l.1)) ∨ ∃ m ∈ after, origin (source m.1) = origin (dest l.1)

def Faultless (tree : Tree) (lastdate : Text) (lines : List (Line × ℕ)) : Prop :=
  Orderly tree (start lastdate) lines ∧ Found tree lines

section Checks
variable {tree : Tree} {s t u : State} {nr : ℕ} {line : Line} {faulty faulty' remarked remarked' : Prop}

/-- From one state to the next, an error is recorded where there is a fault, and something is
printed where there is one or a remark. -/
structure Adds (faulty remarked : Prop) (s t : State) : Prop where
  error : t.error = [] ↔ s.error = [] ∧ ¬ faulty
  printed : t.printed = [] ↔ s.printed = [] ∧ ¬ faulty ∧ ¬ remarked

theorem Adds.nothing (herror : t.error = s.error) (hprinted : t.printed = s.printed) (hfaulty : ¬ faulty)
    (hremarked : ¬ remarked) : Adds faulty remarked s t := by
  refine ⟨?_, ?_⟩
  · rw [herror, and_iff_left hfaulty]
  · rw [hprinted, and_iff_left ⟨hfaulty, hremarked⟩]

theorem Adds.complaint (s : State) (nr : ℕ) (text : Text) (hfaulty : faulty) :
    Adds faulty remarked s (s.complain nr text) where
  error := iff_of_false (List.concat_ne_nil _ _) fun h => h.2 hfaulty
  printed := iff_of_false (List.concat_ne_nil _ _) fun h => h.2.1 hfaulty

theorem Adds.remark (s : State) (nr : ℕ) (text : Text) (hfaulty : ¬ faulty) (hremarked : remarked) :
    Adds faulty remarked s (s.remark nr text) where
  error := (and_iff_left hfaulty).symm
  printed := iff_of_false (List.concat_ne_nil _ _) fun h => h.2.2 hremarked

theorem Adds.trans (h : Adds faulty remarked s t) (h' : Adds faulty' remarked' t u) :
    Adds (faulty ∨ faulty') (remarked ∨ remarked') s u := by
  refine ⟨?_, ?_⟩
  · rw [h'.error, h.error, not_or, and_assoc]
  · rw [h'.printed, h.printed, not_or, not_or]
    tauto

theorem Adds.congr (h : Adds faulty remarked s t) (hfaulty : faulty ↔ faulty') (hremarked : remarked ↔ remarked') :
    Adds faulty' remarked' s t := by
  rwa [← hfaulty, ← hremarked]

theorem checkDate_adds (s : State) (nr : ℕ) (line : Line) :
    Adds (date line < s.lastdate) False s (checkDate s nr line) := by
  unfold checkDate
  dsimp only
  split_ifs with hback
  · exact ⟨iff_of_false (List.concat_ne_nil _ _) fun h => h.2 hback,
      iff_of_false (List.concat_ne_nil _ _) fun h => h.2.1 hback⟩
  · exact .nothing rfl rfl hback not_false

theorem checkSource_adds (tree : Tree) (s : State) (nr : ℕ) (line : Line) :
    Adds False (Resurrected tree line) s (checkSource tree s nr line) := by
  unfold checkSource
  dsimp only
  split_ifs with hgone hflavor hhas hlike
  · exact .nothing rfl rfl not_false fun h => by simp [h.1] at hgone
  · exact .remark s nr _ not_false ⟨by simpa using hgone, .inr hhas⟩
  · exact .nothing rfl rfl not_false fun h => h.2.elim hflavor hhas
  · exact .remark s nr _ not_false ⟨by simpa using hgone, .inl (not_not.1 hflavor)⟩
  · exact .remark s nr _ not_false ⟨by simpa using hgone, .inl (not_not.1 hflavor)⟩

theorem checkDest_adds (tree : Tree) (s : State) (nr : ℕ) (line : Line) (h : dest line ≠ []) :
    Adds (¬ FlavorKnown tree line) False s (checkDest tree s nr line) := by
  unfold checkDest
  dsimp only
  split_ifs with hgone hflavor
  · refine .nothing rfl rfl (not_not_intro fun _ hport => ?_) not_false
    rw [hport] at hgone
    cases hgone
  · simp only [Bool.and_eq_true, decide_eq_true_eq, Bool.not_eq_true'] at hflavor
    refine .complaint s nr _ fun hknown => ?_
    have hhas := hknown h (by simpa using hgone) hflavor.1
    rw [hflavor.2] at hhas
    cases hhas
  · refine .nothing rfl rfl (not_not_intro fun _ _ hne => ?_) not_false
    simpa [hne] using hflavor

theorem checkReason_adds (s : State) (nr : ℕ) (line : Line) :
    Adds ((reason line).getLast? = some '.') False s (checkReason s nr line) := by
  unfold checkReason
  split_ifs with hdot
  · exact .complaint s nr _ hdot
  · exact .nothing rfl rfl hdot not_false

structure Passes (tree : Tree) (s : State) (line : Line) : Prop where
  sound : Sound tree line
  new : source line ∉ s.srcs
  date : ¬ date line < s.lastdate

theorem checkMove_adds (tree : Tree) (nr : ℕ) (h : source line ∉ s.srcs) :
    Adds (date line < s.lastdate ∨ ¬ FlavorKnown tree line ∨ (reason line).getLast? = some '.') (Resurrected tree line) s
      (checkMove tree s nr line) := by
  rw [checkMove, if_neg h]
  dsimp only
  have hstart : Adds False False s { s with srcs := source line :: s.srcs } := .nothing rfl rfl not_false not_false
  have hsourced := (hstart.trans (checkDate_adds { s with srcs := source line :: s.srcs } nr line)).trans
    (checkSource_adds tree _ nr line)
  by_cases hdest : dest line ≠ []
  · rw [if_pos hdest]
    refine ((hsourced.trans (checkDest_adds tree _ nr line hdest)).trans (checkReason_adds _ nr line)).congr ?_ ?_
    · simp only [false_or, or_false, or_assoc]
    · simp only [false_or, or_false]
  · rw [if_neg hdest]
    have hknown : FlavorKnown tree line := fun hne => absurd hne hdest
    refine (hsourced.trans (checkReason_adds _ nr line)).congr ?_ ?_
    · simp only [false_or, or_false, hknown, not_true_eq_false]
    · simp only [false_or, or_false]

theorem check_adds (tree : Tree) (s : State) (l : Line × ℕ) :
    Adds (¬ Passes tree s l.1) (Resurrected tree l.1) s (check tree s l) := by
  unfold check
  cases hformat : formatFault l.1 with
  | some text =>
    refine .complaint s l.2 text fun hpasses => ?_
    rw [hpasses.sound.format] at hformat
    cases hformat
  | none =>
    dsimp only
    by_cases hnew : source l.1 ∈ s.srcs
    · rw [checkMove, if_pos hnew]
      exact .complaint s l.2 _ fun hpasses => hpasses.new hnew
    · refine (checkMove_adds tree l.2 hnew).congr ?_ Iff.rfl
      constructor
      · rintro (hdate | hknown | hdot) hpasses
        · exact hpasses.date hdate
        · exact hknown hpasses.sound.flavor
        · exact hpasses.sound.reason hdot
      · intro hnot
        by_contra hgood
        rw [not_or, not_or, not_not] at hgood
        exact hnot ⟨⟨hformat, hgood.2.1, hgood.2.2⟩, hnew, hgood.1⟩

theorem Orderly.fresh {lines : List (Line × ℕ)} (h : Orderly tree s lines) : Fresh s lines :=
  ⟨fun l hl => (h.sound l hl).format, h.distinct, h.new⟩

theorem orderly_cons {l : Line × ℕ} {lines : List (Line × ℕ)} :
    Orderly tree s (l :: lines) ↔ Passes tree s l.1 ∧ Orderly tree (check tree s l) lines := by
  have hkeeps : Passes tree s l.1 →
      (check tree s l).srcs = source l.1 :: s.srcs ∧ (check tree s l).lastdate = date l.1 := by
    intro hpasses
    obtain ⟨hsrcs, hdate, -⟩ := checkMove_keeps tree l.2 hpasses.new
    rw [check, hpasses.sound.format]
    exact ⟨hsrcs, hdate⟩
  constructor
  · intro h
    obtain ⟨hdate, hdates⟩ := List.isChain_cons_cons.1 h.dates
    have hpasses : Passes tree s l.1 := ⟨h.sound l List.mem_cons_self, h.new l List.mem_cons_self, hdate⟩
    obtain ⟨-, hfresh⟩ := h.fresh.check tree
    refine ⟨hpasses, fun m hm => h.sound m (List.mem_cons_of_mem _ hm), hfresh.distinct, hfresh.new, ?_⟩
    rw [(hkeeps hpasses).2]
    exact hdates
  · rintro ⟨hpasses, h⟩
    obtain ⟨hsrcs, hdate⟩ := hkeeps hpasses
    have hnew := h.new
    have hdates := h.dates
    rw [hsrcs] at hnew
    rw [hdate] at hdates
    refine ⟨List.forall_mem_cons.2 ⟨hpasses.sound, h.sound⟩, ?_, List.forall_mem_cons.2 ⟨hpasses.new, fun m hm => ?_⟩, ?_⟩
    · refine List.nodup_cons.2 ⟨fun hmem => ?_, h.distinct⟩
      obtain ⟨m, hm, heq⟩ := List.mem_map.1 hmem
      exact hnew m hm (List.mem_cons.2 (.inl heq))
    · exact fun hmem => hnew m hm (List.mem_cons_of_mem _ hmem)
    · exact List.isChain_cons_cons.2 ⟨hpasses.date, hdates⟩

theorem run_adds (tree : Tree) (lines : List (Line × ℕ)) (s : State) :
    Adds (¬ Orderly tree s lines) (∃ l ∈ lines, Resurrected tree l.1) s (lines.foldl (check tree) s) := by
  induction lines generalizing s with
  | nil =>
    have horderly : Orderly tree s [] := ⟨nofun, .nil, nofun, .singleton _⟩
    exact .nothing rfl rfl (not_not_intro horderly) fun h => by obtain ⟨l, hl, -⟩ := h; cases hl
  | cons l lines ih =>
    refine ((check_adds tree s l).trans (ih (check tree s l))).congr ?_ ?_
    · rw [orderly_cons, not_and_or]
    · rw [List.exists_mem_cons_iff]

end Checks

section Status
variable {tree : Tree} {lastdate : Text} {file : List Line}

/-- Where nothing else is wrong, no port is missing in the end just where each destination is found. -/
theorem missing_nil_iff (h : Orderly tree (start lastdate) (read lastdate file)) :
    (scanned tree lastdate file).missing = [] ↔ Found tree (read lastdate file) := by
  have hpending : (scanned tree lastdate file).missing = [] ↔ ∀ port, ¬ Pending (scanned tree lastdate file) port := by
    constructor
    · rintro hnil port ⟨nr, hnr⟩
      rw [hnil] at hnr
      cases hnr
    · exact fun hnone => List.eq_nil_iff_forall_not_mem.2 fun m hm => hnone m.1 ⟨m.2, hm⟩
  have hstart : ∀ port, ¬ Pending (start lastdate) port := by
    rintro port ⟨nr, hnr⟩
    cases hnr
  have hrun : ∀ port, Pending (scanned tree lastdate file) port ↔
      tree.hasMakefile port = false ∧ Unmoved (read lastdate file) port := by
    intro port
    rw [scanned_eq]
    cases hport : tree.hasMakefile port with
    | true => simpa [pending_present h.fresh hport] using hstart port
    | false =>
      rw [pending_run h.fresh hport, or_iff_right fun hboth => hstart port hboth.1]
      exact (and_iff_right rfl).symm
  rw [hpending]
  simp only [hrun]
  constructor
  · intro hnone before l after hsplit hdest
    by_cases hport : tree.hasMakefile (origin (dest l.1))
    · exact .inl hport
    · right
      by_contra hlater
      have hunmoved : Unmoved (read lastdate file) (origin (dest l.1)) :=
        ⟨before, l, after, hsplit, ⟨hdest, rfl⟩, fun m hm heq => hlater ⟨m, hm, heq⟩⟩
      exact hnone _ ⟨Bool.eq_false_iff.2 hport, hunmoved⟩
  · rintro hfound port ⟨hport, before, l, after, hsplit, ⟨hdest, rfl⟩, hlater⟩
    obtain hthere | ⟨m, hm, heq⟩ := hfound before l after hsplit hdest
    · rw [hport] at hthere
      cases hthere
    · exact hlater m hm heq

theorem outcome_nil (tree : Tree) (lastdate : Text) (file : List Line) :
    ((scanned tree lastdate file).error ++ (scanned tree lastdate file).missing.map Prod.snd = [] ↔
      Faultless tree lastdate (read lastdate file)) ∧
    ((scanned tree lastdate file).printed ++ notFound (scanned tree lastdate file) = [] ↔
      Faultless tree lastdate (read lastdate file) ∧ ¬ ∃ l ∈ read lastdate file, Resurrected tree l.1) := by
  have hadds := run_adds tree (read lastdate file) (start lastdate)
  rw [← scanned_eq] at hadds
  have herror := hadds.error
  have hprinted := hadds.printed
  rw [not_not, and_iff_right (show (start lastdate).error = [] from rfl)] at herror
  rw [not_not, and_iff_right (show (start lastdate).printed = [] from rfl)] at hprinted
  rw [List.append_eq_nil_iff, List.append_eq_nil_iff, notFound, List.map_eq_nil_iff, List.map_eq_nil_iff, herror, hprinted,
    Faultless]
  by_cases horderly : Orderly tree (start lastdate) (read lastdate file)
  · rw [missing_nil_iff horderly]
    exact ⟨Iff.rfl, by tauto⟩
  · tauto

/-- The status tells of the complaints just where there is a fault, or where there are lines of
`git blame` if and only if a source is in the tree. -/
theorem status_iff (tree : Tree) (lastdate : Text) (blame : List Text) (file : List Line) :
    ((lint tree lastdate blame file).status = 1 ↔ (lint tree lastdate blame file).printed ≠ []) ↔
      ¬ Faultless tree lastdate (read lastdate file) ∨
        ((∃ l ∈ read lastdate file, Resurrected tree l.1) ↔ blame ≠ []) := by
  obtain ⟨herror, hprinted⟩ := outcome_nil tree lastdate file
  have hblame : ((blame.zipIdx 1).map Prod.swap).map Prod.fst = [] ↔ blame = [] := by
    rw [List.map_eq_nil_iff, List.map_eq_nil_iff, List.zipIdx_eq_nil_iff]
  have hstatus : (lint tree lastdate blame file).status = 1 ↔
      ¬ (Faultless tree lastdate (read lastdate file) ∧ blame = []) := by
    rw [← herror, ← hblame, ← List.append_eq_nil_iff, ← ne_eq, ← List.length_pos_iff, lint]
    dsimp only
    split_ifs with hlooked
    · exact iff_of_true rfl hlooked
    · exact iff_of_false not_false hlooked
  have hsilent : (lint tree lastdate blame file).printed = [] ↔ _ := hprinted
  rw [hstatus, ne_eq, hsilent]
  by_cases hfaultless : Faultless tree lastdate (read lastdate file)
  · simp only [hfaultless, true_and, not_true_eq_false, false_or, not_not]
    exact iff_comm
  · simp only [hfaultless, false_and, not_false_eq_true, true_or]

/-- A port that is in the tree again is complained of, and the status is 0. -/
theorem resurrected_unreported : ¬ ((lint onePort firstDate [] ["c/z||2020-01-01|Gone".toList]).status = 1 ↔
    (lint onePort firstDate [] ["c/z||2020-01-01|Gone".toList]).printed ≠ []) := by
  decide

end Status

end Mports.MovedLintStatus
