import Mathlib.Data.Char
import Mathlib.Data.List.Basic
import Mathlib.Data.List.Lex
import Mathlib.Data.List.Nodup
import Mathlib.Data.List.TakeWhile

set_option autoImplicit false

namespace Mports.MovedLint

abbrev Text := List Char
abbrev Line := List Char

/-- The fields of a line under `FS = "|"`. -/
def fields (line : Line) : List Text := line.splitOn '|'

def field (n : ℕ) (line : Line) : Text := (fields line).getD (n - 1) []

abbrev source (line : Line) : Text := field 1 line
abbrev dest (line : Line) : Text := field 2 line
abbrev date (line : Line) : Text := field 3 line
abbrev reason (line : Line) : Text := field 4 line

/-- `^[^/]+/[^/]+$`. -/
def isOrigin (text : Text) : Bool :=
  match text.splitOn '/' with
  | [category, port] => category ≠ [] && port ≠ []
  | _ => false

/-- `^20[0-3][0-9]-[01][0-9]-[0-3][0-9]$`. -/
def isDate : Text → Bool
  | [two, zero, decade, year, dash, tens, month, dash', week, day] =>
    two = '2' && zero = '0' && ('0' ≤ decade && decade ≤ '3') && year.isDigit &&
      dash = '-' && ('0' ≤ tens && tens ≤ '1') && month.isDigit &&
      dash' = '-' && ('0' ≤ week && week ≤ '3') && day.isDigit
  | _ => false

def hasBlank (text : Text) : Bool := text.any fun c => c = ' ' || c = '\t'

/-- `sub("@.*", "", $1)`. -/
def origin (text : Text) : Text := text.takeWhile (· ≠ '@')

/-- What `sub(".*@", "", from_flavor)` leaves of a text that has a flavor. -/
def flavor (text : Text) : Text := if '@' ∈ text then (text.reverse.takeWhile (· ≠ '@')).reverse else []

/-- `hasMakefile` and `hasFlavor` are what `test` says of the ports tree, and `resembles` whether
a destination matches the regular expression of an origin and `@`. -/
structure Tree where
  hasMakefile : Text → Bool
  hasFlavor : Text → Text → Bool
  resembles : Text → Text → Bool

structure Complaint where
  line : ℕ
  text : Text
  deriving DecidableEq, Repr

/-- `error` has the indices of the elements of the array, in the order of their first use. -/
structure State where
  srcs : List Text
  lastdate : Text
  missing : List (Text × ℕ)
  printed : List Complaint
  error : List ℕ

def State.remark (s : State) (nr : ℕ) (text : Text) : State := { s with printed := s.printed ++ [⟨nr, text⟩] }

def State.complain (s : State) (nr : ℕ) (text : Text) : State :=
  { s with printed := s.printed ++ [⟨nr, text⟩], error := s.error ++ [nr] }

def checkDate (s : State) (nr : ℕ) (line : Line) : State :=
  let range := "date going backwards from ".toList ++ s.lastdate ++ " to ".toList ++ date line
  let s := if date line < s.lastdate then
      (s.complain (nr - 1) (range ++ " from this line".toList)).complain nr (range ++ " to this line".toList)
    else s
  { s with lastdate := date line }

section
variable (tree : Tree)

/-- The remarks on a source; one of a port that is gone is taken out of the missing ones. -/
def checkSource (s : State) (nr : ℕ) (line : Line) : State :=
  let port := origin (source line)
  if !tree.hasMakefile port then { s with missing := s.missing.filter fun m => m.1 ≠ port }
  else if flavor (source line) ≠ [] then
    if tree.hasFlavor port (flavor (source line)) then
      s.remark nr (port ++ " still has the ".toList ++ flavor (source line) ++ " flavor".toList)
    else s
  else if tree.resembles (dest line) port then
    s.remark nr (dest line ++ " is a flavor of ".toList ++ port ++ ", the line should be removed".toList)
  else s.remark nr (port ++ " must be marked as resurrected".toList)

def checkDest (s : State) (nr : ℕ) (line : Line) : State :=
  let port := origin (dest line)
  if !tree.hasMakefile port then { s with missing := s.missing.filter (fun m => m.1 ≠ port) ++ [(port, nr)] }
  else if flavor (dest line) ≠ [] && !tree.hasFlavor port (flavor (dest line)) then
    s.complain nr (port ++ " does not have the ".toList ++ flavor (dest line) ++ " flavor".toList)
  else s

def checkReason (s : State) (nr : ℕ) (line : Line) : State :=
  if (reason line).getLast? = some '.' then
    s.complain nr ("Final character is a dot: (".toList ++ reason line ++ [')'])
  else s

def checkMove (s : State) (nr : ℕ) (line : Line) : State :=
  if source line ∈ s.srcs then s.complain nr (source line ++ " has duplicate entries".toList)
  else
    let s := checkSource tree (checkDate { s with srcs := source line :: s.srcs } nr line) nr line
    let s := if dest line ≠ [] then checkDest tree s nr line else s
    checkReason s nr line

def formatFault (line : Line) : Option Text :=
  if (fields line).length ≠ 4 then
    some ("format is from|to|date|reason, detected ".toList ++ (toString (fields line).length).toList ++
      " field(s) ".toList)
  else if !isOrigin (source line) || !(dest line = [] || isOrigin (dest line)) then
    some "source and destination must be category/port".toList
  else if !isDate (date line) then some "missing YYYY-MM-DD date".toList
  else if hasBlank (source line) then some ("'".toList ++ source line ++ "' contains spaces".toList)
  else if hasBlank (dest line) then some ("'".toList ++ dest line ++ "' contains spaces".toList)
  else none

def isComment (line : Line) : Bool := line = [] || line.head? = some '#'

def check (s : State) (numbered : Line × ℕ) : State :=
  match formatFault numbered.1 with
  | some text => s.complain numbered.2 text
  | none => checkMove tree s numbered.2 numbered.1

/-- All rules, with `started`. -/
def step (s : Bool × State) (numbered : Line × ℕ) : Bool × State :=
  if isComment numbered.1 then s
  else if !s.1 && date numbered.1 < s.2.lastdate then s
  else (true, check tree s.2 numbered)

/-- `lastdate` is what `BEGIN` leaves there. -/
def start (lastdate : Text) : State := ⟨[], lastdate, [], [], []⟩

def scanned (lastdate : Text) (file : List Line) : State := ((file.zipIdx 1).foldl (step tree) (false, start lastdate)).2

/-- `%s not found`, for each of the missing ports. -/
def notFound (s : State) : List Complaint := s.missing.map fun m => ⟨m.2, m.1 ++ " not found".toList⟩

structure Outcome where
  printed : List Complaint
  blamed : List (ℕ × Text)
  status : ℕ

/-- The whole run. `blame` are the lines that `git blame` prints, none without `BLAME`; to look
for the error of a line makes an element for it. -/
def lint (lastdate : Text) (blame : List Text) (file : List Line) : Outcome :=
  let s := scanned tree lastdate file
  let error := s.error ++ s.missing.map Prod.snd
  let numbered := (blame.zipIdx 1).map Prod.swap
  let looked := error ++ numbered.map Prod.fst
  { printed := s.printed ++ notFound s
    blamed := numbered.filter fun line => line.1 ∈ error
    status := if 0 < looked.length then 1 else 0 }

end

section Scanning
variable {tree : Tree} {s : State} {nr : ℕ} {line : Line}

def read (lastdate : Text) (file : List Line) : List (Line × ℕ) :=
  ((file.zipIdx 1).filter fun l => !isComment l.1).dropWhile fun l => date l.1 < lastdate

theorem scanned_eq (tree : Tree) (lastdate : Text) (file : List Line) :
    scanned tree lastdate file = (read lastdate file).foldl (check tree) (start lastdate) := by
  have hstarted : ∀ (lines : List (Line × ℕ)) (s : State), lines.foldl (step tree) (true, s) =
      (true, (lines.filter fun l => !isComment l.1).foldl (check tree) s) := by
    intro lines
    induction lines with
    | nil => exact fun s => rfl
    | cons l lines ih =>
      intro s
      rw [List.foldl_cons, step]
      by_cases hcomment : isComment l.1
      · rw [if_pos hcomment, List.filter_cons_of_neg (by simp [hcomment]), ih]
      · rw [if_neg hcomment, Bool.not_true, Bool.false_and, if_neg Bool.false_ne_true,
          List.filter_cons_of_pos (by simp [hcomment]), ih]
        rfl
  have hfirst : ∀ lines : List (Line × ℕ), (lines.foldl (step tree) (false, start lastdate)).2 =
      ((lines.filter fun l => !isComment l.1).dropWhile fun l => date l.1 < lastdate).foldl (check tree)
        (start lastdate) := by
    intro lines
    induction lines with
    | nil => rfl
    | cons l lines ih =>
      rw [List.foldl_cons, step]
      by_cases hcomment : isComment l.1
      · rw [if_pos hcomment, List.filter_cons_of_neg (by simp [hcomment]), ih]
      · rw [if_neg hcomment, List.filter_cons_of_pos (by simp [hcomment])]
        by_cases hold : date l.1 < lastdate
        · rw [if_pos (by exact decide_eq_true hold), List.dropWhile_cons_of_pos (by exact decide_eq_true hold), ih]
        · rw [if_neg (by exact fun heq => hold (of_decide_eq_true heq)),
            List.dropWhile_cons_of_neg (by exact fun heq => hold (of_decide_eq_true heq)), hstarted]
          rfl
  exact hfirst (file.zipIdx 1)

theorem checkDate_keeps (s : State) (nr : ℕ) (line : Line) :
    (checkDate s nr line).missing = s.missing ∧ (checkDate s nr line).srcs = s.srcs ∧
      (checkDate s nr line).lastdate = date line := by
  unfold checkDate
  dsimp only
  split_ifs <;> exact ⟨rfl, rfl, rfl⟩

theorem checkSource_keeps (tree : Tree) (s : State) (nr : ℕ) (line : Line) :
    (checkSource tree s nr line).srcs = s.srcs ∧ (checkSource tree s nr line).lastdate = s.lastdate ∧
      (checkSource tree s nr line).error = s.error ∧
      (checkSource tree s nr line).missing =
        if tree.hasMakefile (origin (source line)) then s.missing
        else s.missing.filter fun m => m.1 ≠ origin (source line) := by
  unfold checkSource
  dsimp only
  cases hport : tree.hasMakefile (origin (source line)) with
  | false =>
    rw [Bool.not_false, if_pos rfl, if_neg Bool.false_ne_true]
    exact ⟨rfl, rfl, rfl, rfl⟩
  | true =>
    rw [Bool.not_true, if_neg Bool.false_ne_true, if_pos rfl]
    split_ifs <;> exact ⟨rfl, rfl, rfl, rfl⟩

theorem checkReason_keeps (s : State) (nr : ℕ) (line : Line) :
    (checkReason s nr line).missing = s.missing ∧ (checkReason s nr line).srcs = s.srcs ∧
      (checkReason s nr line).lastdate = s.lastdate := by
  unfold checkReason
  split_ifs <;> exact ⟨rfl, rfl, rfl⟩

theorem checkDest_keeps (tree : Tree) (s : State) (nr : ℕ) (line : Line) :
    (checkDest tree s nr line).srcs = s.srcs ∧ (checkDest tree s nr line).lastdate = s.lastdate := by
  unfold checkDest
  dsimp only
  split_ifs <;> exact ⟨rfl, rfl⟩

def Pending (s : State) (port : Text) : Prop := ∃ nr, (port, nr) ∈ s.missing

theorem pending_of_missing {s t : State} (h : s.missing = t.missing) (port : Text) : Pending s port ↔ Pending t port := by
  rw [Pending, Pending, h]

theorem pending_checkSource (tree : Tree) (s : State) (nr : ℕ) (line : Line) (port : Text) :
    Pending (checkSource tree s nr line) port ↔
      Pending s port ∧ (origin (source line) = port → tree.hasMakefile port) := by
  obtain ⟨-, -, -, hmissing⟩ := checkSource_keeps tree s nr line
  rw [Pending, hmissing]
  by_cases hport : tree.hasMakefile (origin (source line))
  · rw [if_pos hport]
    exact ⟨fun h => ⟨h, fun heq => heq ▸ hport⟩, fun h => h.1⟩
  · rw [if_neg hport]
    simp only [List.mem_filter, decide_eq_true_eq]
    constructor
    · rintro ⟨n, hn, hne⟩
      exact ⟨⟨n, hn⟩, fun heq => absurd heq.symm hne⟩
    · rintro ⟨⟨n, hn⟩, hgone⟩
      exact ⟨n, hn, fun heq => hport (by rw [← heq]; exact hgone heq.symm)⟩

theorem pending_checkDest (tree : Tree) (s : State) (nr : ℕ) (line : Line) (port : Text) :
    Pending (checkDest tree s nr line) port ↔
      Pending s port ∨ (origin (dest line) = port ∧ tree.hasMakefile port = false) := by
  unfold checkDest
  dsimp only
  by_cases hport : tree.hasMakefile (origin (dest line))
  · have hkept : ∀ t : State, t.missing = s.missing →
        (Pending t port ↔ Pending s port ∨ (origin (dest line) = port ∧ tree.hasMakefile port = false)) := by
      intro t ht
      rw [pending_of_missing ht, or_iff_left]
      rintro ⟨rfl, hgone⟩
      rw [hport] at hgone
      cases hgone
    rw [hport, Bool.not_true, if_neg Bool.false_ne_true]
    split_ifs <;> exact hkept _ rfl
  · rw [Bool.eq_false_iff.2 hport, Bool.not_false, if_pos rfl, Pending]
    simp only [List.mem_append, List.mem_filter, List.mem_singleton, decide_eq_true_eq, Prod.mk.injEq]
    constructor
    · rintro ⟨n, ⟨hn, -⟩ | ⟨rfl, -⟩⟩
      · exact .inl ⟨n, hn⟩
      · exact .inr ⟨rfl, Bool.eq_false_iff.2 hport⟩
    · rintro (⟨n, hn⟩ | ⟨rfl, -⟩)
      · by_cases heq : port = origin (dest line)
        · exact ⟨nr, .inr ⟨heq, rfl⟩⟩
        · exact ⟨n, .inl ⟨hn, heq⟩⟩
      · exact ⟨nr, .inr ⟨rfl, rfl⟩⟩

/-- What becomes of the sources, the date and the missing ports with a line that is no duplicate. -/
theorem checkMove_keeps (tree : Tree) {s : State} (nr : ℕ) {line : Line} (h : source line ∉ s.srcs) :
    (checkMove tree s nr line).srcs = source line :: s.srcs ∧ (checkMove tree s nr line).lastdate = date line ∧
      ∀ port, Pending (checkMove tree s nr line) port ↔
        (Pending s port ∧ (origin (source line) = port → tree.hasMakefile port)) ∨
          (dest line ≠ [] ∧ origin (dest line) = port ∧ tree.hasMakefile port = false) := by
  rw [checkMove, if_neg h]
  dsimp only
  obtain ⟨hmissing, hsrcs, hdate⟩ := checkDate_keeps { s with srcs := source line :: s.srcs } nr line
  generalize checkDate { s with srcs := source line :: s.srcs } nr line = dated at *
  obtain ⟨hsrcs', hdate', -⟩ := checkSource_keeps tree dated nr line
  have hpending := pending_checkSource tree dated nr line
  generalize checkSource tree dated nr line = sourced at *
  obtain ⟨hsrcs'', hdate''⟩ := checkDest_keeps tree sourced nr line
  have hdest := pending_checkDest tree sourced nr line
  by_cases hempty : dest line ≠ []
  · rw [if_pos hempty]
    obtain ⟨hlast, hlast', hlast''⟩ := checkReason_keeps (checkDest tree sourced nr line) nr line
    refine ⟨by rw [hlast', hsrcs'', hsrcs', hsrcs], by rw [hlast'', hdate'', hdate', hdate], fun port => ?_⟩
    rw [pending_of_missing hlast, hdest, hpending, pending_of_missing hmissing, and_iff_right hempty]
    rfl
  · rw [if_neg hempty]
    obtain ⟨hlast, hlast', hlast''⟩ := checkReason_keeps sourced nr line
    refine ⟨by rw [hlast', hsrcs', hsrcs], by rw [hlast'', hdate', hdate], fun port => ?_⟩
    rw [pending_of_missing hlast, hpending, pending_of_missing hmissing, or_iff_left fun hmoved => hempty hmoved.1]
    rfl

def Unmoved (lines : List (Line × ℕ)) (port : Text) : Prop :=
  ∃ before l after, lines = before ++ l :: after ∧ (dest l.1 ≠ [] ∧ origin (dest l.1) = port) ∧
    ∀ m ∈ after, origin (source m.1) ≠ port

theorem unmoved_cons (l : Line × ℕ) (lines : List (Line × ℕ)) (port : Text) : Unmoved (l :: lines) port ↔
    ((dest l.1 ≠ [] ∧ origin (dest l.1) = port) ∧ ∀ m ∈ lines, origin (source m.1) ≠ port) ∨ Unmoved lines port := by
  constructor
  · rintro ⟨before, m, after, hsplit, hmoved, hlater⟩
    cases before with
    | nil =>
      obtain ⟨rfl, rfl⟩ := List.cons.inj hsplit
      exact .inl ⟨hmoved, hlater⟩
    | cons l' before =>
      obtain ⟨-, rfl⟩ := List.cons.inj hsplit
      exact .inr ⟨before, m, after, rfl, hmoved, hlater⟩
  · rintro (⟨hmoved, hlater⟩ | ⟨before, m, after, rfl, hmoved, hlater⟩)
    · exact ⟨[], l, lines, rfl, hmoved, hlater⟩
    · exact ⟨l :: before, m, after, rfl, hmoved, hlater⟩

/-- The lines are well-formed, and their sources are new. -/
structure Fresh (s : State) (lines : List (Line × ℕ)) : Prop where
  formed : ∀ l ∈ lines, formatFault l.1 = none
  distinct : (lines.map fun l => source l.1).Nodup
  new : ∀ l ∈ lines, source l.1 ∉ s.srcs

theorem Fresh.check (tree : Tree) {l : Line × ℕ} {lines : List (Line × ℕ)} (h : Fresh s (l :: lines)) :
    check tree s l = checkMove tree s l.2 l.1 ∧ Fresh (check tree s l) lines := by
  have hcheck : MovedLint.check tree s l = checkMove tree s l.2 l.1 := by
    rw [MovedLint.check, h.formed l List.mem_cons_self]
  obtain ⟨hnot, hdistinct⟩ := List.nodup_cons.1 h.distinct
  refine ⟨hcheck, fun m hm => h.formed m (List.mem_cons_of_mem _ hm), hdistinct, fun m hm => ?_⟩
  rw [hcheck, (checkMove_keeps tree l.2 (h.new l List.mem_cons_self)).1, List.mem_cons, not_or]
  exact ⟨fun heq => hnot (List.mem_map.2 ⟨m, hm, heq⟩), h.new m (List.mem_cons_of_mem _ hm)⟩

/-- A port that is not in the tree is missing in the end if it was and no line moves it, or if
some line moves to it and no later one moves it. -/
theorem pending_run {lines : List (Line × ℕ)} (h : Fresh s lines) {port : Text} (hport : tree.hasMakefile port = false) :
    Pending (lines.foldl (check tree) s) port ↔
      (Pending s port ∧ ∀ m ∈ lines, origin (source m.1) ≠ port) ∨ Unmoved lines port := by
  induction lines generalizing s with
  | nil =>
    have hnone : ¬ Unmoved [] port := by
      rintro ⟨before, l, after, hsplit, -⟩
      exact List.append_ne_nil_of_right_ne_nil before (List.cons_ne_nil l after) hsplit.symm
    rw [or_iff_left hnone]
    exact ⟨fun hpending => ⟨hpending, nofun⟩, fun hboth => hboth.1⟩
  | cons l lines ih =>
    obtain ⟨hcheck, hrest⟩ := h.check tree
    have hone := (checkMove_keeps tree l.2 (h.new l List.mem_cons_self)).2.2 port
    rw [List.foldl_cons, ih hrest, hcheck, hone, unmoved_cons, List.forall_mem_cons, hport]
    simp only [Bool.false_eq_true, imp_false, and_true]
    rw [or_and_right, or_assoc, and_assoc]

theorem pending_present {lines : List (Line × ℕ)} (h : Fresh s lines) {port : Text} (hport : tree.hasMakefile port) :
    Pending (lines.foldl (check tree) s) port ↔ Pending s port := by
  induction lines generalizing s with
  | nil => rfl
  | cons l lines ih =>
    obtain ⟨hcheck, hrest⟩ := h.check tree
    have hone := (checkMove_keeps tree l.2 (h.new l List.mem_cons_self)).2.2 port
    rw [List.foldl_cons, ih hrest, hcheck, hone, hport]
    simp

end Scanning

section Chains

def moves (file : List Line) : List Line := file.filter fun line => !isComment line

/-- A file of moves from ports that differ, in the order of their dates. -/
structure MovedFile where
  lines : List Line
  formed : ∀ line ∈ moves lines, formatFault line = none
  distinct : ((moves lines).map source).Nodup
  dates : ((moves lines).map date).Pairwise (· ≤ ·)

def firstDate : Text := "1999-12-31".toList

def Reported (tree : Tree) (f : MovedFile) (port : Text) : Prop :=
  ∃ nr, ⟨nr, port ++ " not found".toList⟩ ∈ notFound (scanned tree firstDate f.lines)

/-- Some line moves to the port, or to a flavor of it, and no later one takes up this move. -/
def Dangling (takesUp : Line → Line → Prop) (f : MovedFile) (port : Text) : Prop :=
  ∃ before l after, moves f.lines = before ++ l :: after ∧ (dest l ≠ [] ∧ origin (dest l) = port) ∧
    ∀ m ∈ after, ¬ takesUp m l

def TakesUp (m l : Line) : Prop := source m = dest l ∨ source m = origin (dest l)

/-- By a source of the same origin, whatever its flavor. -/
def TakesUpOrigin (m l : Line) : Prop := origin (source m) = origin (dest l)

theorem isDate_of_formed {line : Line} (h : formatFault line = none) : isDate (date line) := by
  unfold formatFault at h
  split_ifs at h with hfields horigin hdate
  simpa using hdate

theorem firstDate_le {text : Text} (h : isDate text) : ¬ text < firstDate := by
  have hone : firstDate = '1' :: "999-12-31".toList := rfl
  have htwo : ∃ rest, text = '2' :: rest := by
    unfold isDate at h
    split at h
    · simp only [Bool.and_eq_true, decide_eq_true_eq] at h
      obtain ⟨⟨⟨⟨⟨⟨⟨⟨⟨htwo, -⟩, -⟩, -⟩, -⟩, -⟩, -⟩, -⟩, -⟩, -⟩ := h
      rw [htwo]
      exact ⟨_, rfl⟩
    · cases h
  obtain ⟨rest, rfl⟩ := htwo
  rw [hone, List.cons_lt_cons_iff, not_or]
  exact ⟨by decide, fun heq => absurd heq.1 (by decide)⟩

theorem read_moves (f : MovedFile) : (read firstDate f.lines).map Prod.fst = moves f.lines ∧
    Fresh (start firstDate) (read firstDate f.lines) := by
  have hmap : ((f.lines.zipIdx 1).filter fun l => !isComment l.1).map Prod.fst = moves f.lines := by
    have hfilter := List.filter_map (f := Prod.fst) (p := fun line => !isComment line) (l := f.lines.zipIdx 1)
    rw [List.zipIdx_map_fst] at hfilter
    exact hfilter.symm
  have hformed : ∀ l ∈ (f.lines.zipIdx 1).filter fun l => !isComment l.1, formatFault l.1 = none := by
    intro l hl
    refine f.formed l.1 ?_
    rw [← hmap]
    exact List.mem_map_of_mem hl
  have hall : read firstDate f.lines = (f.lines.zipIdx 1).filter fun l => !isComment l.1 := by
    refine List.dropWhile_eq_self_iff.2 fun hlength hold => ?_
    exact firstDate_le (isDate_of_formed (hformed _ (List.getElem_mem hlength))) (of_decide_eq_true hold)
  rw [hall]
  refine ⟨hmap, hformed, ?_, fun l _ => nofun⟩
  have hdistinct := f.distinct
  rwa [← hmap, List.map_map] at hdistinct

theorem reported_iff_pending (tree : Tree) (f : MovedFile) (port : Text) :
    Reported tree f port ↔ Pending (scanned tree firstDate f.lines) port := by
  constructor
  · rintro ⟨nr, hnr⟩
    obtain ⟨m, hm, heq⟩ := List.mem_map.1 hnr
    obtain ⟨-, htext⟩ := Complaint.mk.inj heq
    exact ⟨m.2, List.append_cancel_right htext ▸ hm⟩
  · rintro ⟨nr, hnr⟩
    exact ⟨nr, List.mem_map.2 ⟨(port, nr), hnr, rfl⟩⟩

/-- The END block reports just the ports that are not in the tree and to which some line moves
that no later one takes up, by a source of the same origin. -/
theorem reported_iff (tree : Tree) (f : MovedFile) (port : Text) :
    Reported tree f port ↔ tree.hasMakefile port = false ∧ Dangling TakesUpOrigin f port := by
  obtain ⟨hmap, hfresh⟩ := read_moves f
  have hstart : ¬ Pending (start firstDate) port := by
    rintro ⟨nr, hnr⟩
    cases hnr
  have hunmoved : Unmoved (read firstDate f.lines) port ↔ Dangling TakesUpOrigin f port := by
    rw [Dangling, ← hmap]
    constructor
    · rintro ⟨before, l, after, hsplit, hmoved, hlater⟩
      refine ⟨before.map Prod.fst, l.1, after.map Prod.fst, by rw [hsplit, List.map_append, List.map_cons], hmoved, ?_⟩
      intro m hm
      obtain ⟨n, hn, rfl⟩ := List.mem_map.1 hm
      rw [TakesUpOrigin, hmoved.2]
      exact hlater n hn
    · rintro ⟨before, l, after, hsplit, hmoved, hlater⟩
      obtain ⟨before', rest, hread, -, hrest⟩ := List.map_eq_append_iff.1 hsplit
      obtain ⟨l', after', rfl, rfl, rfl⟩ := List.map_eq_cons_iff.1 hrest
      refine ⟨before', l', after', hread, hmoved, fun m hm => ?_⟩
      have hnot := hlater m.1 (List.mem_map_of_mem hm)
      rwa [TakesUpOrigin, hmoved.2] at hnot
  rw [reported_iff_pending, scanned_eq]
  cases hport : tree.hasMakefile port with
  | true => simpa [pending_present hfresh hport] using hstart
  | false =>
    rw [pending_run hfresh hport, or_iff_right fun hboth => hstart hboth.1, hunmoved]
    simp

def flavored : MovedFile where
  lines := ["a/x|b/y|2020-01-01|Moved".toList, "b/y@f|c/z|2020-01-02|Moved".toList]
  formed := List.forall_iff_forall_mem.1 (by decide)
  distinct := by decide
  dates := by decide

def onePort : Tree where
  hasMakefile port := port = "c/z".toList
  hasFlavor _ _ := false
  resembles _ _ := false

theorem flavored_unreported : ¬ (Reported onePort flavored "b/y".toList ↔
    onePort.hasMakefile "b/y".toList = false ∧ Dangling TakesUp flavored "b/y".toList) := by
  intro h
  have hdangling : Dangling TakesUp flavored "b/y".toList := by
    refine ⟨[], _, _, rfl, by decide, List.forall_mem_singleton.2 ?_⟩
    rw [TakesUp, not_or]
    decide
  obtain ⟨nr, hnr⟩ := (reported_iff_pending onePort flavored _).1 (h.2 ⟨by decide, hdangling⟩)
  have hnone : (scanned onePort firstDate flavored.lines).missing = [] := by decide
  rw [hnone] at hnr
  cases hnr

end Chains

end Mports.MovedLint
