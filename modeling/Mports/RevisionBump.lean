import Mports.LineScans
import Mports.PerlText
import Mathlib.Algebra.GroupWithZero.Nat

set_option autoImplicit false

namespace Mports.RevisionBump
open LineScans PerlText

abbrev Line := List Char

/-- `[ \t]`. -/
def isTab (c : Char) : Bool := c = ' ' || c = '\t'

def number (digits : List Char) : ℕ := Nat.ofDigitChars 10 digits 0

/-- `/PORTREVISION\??=[ \t]*(\d+)$/` at one place, with the number. -/
def matchRevision (text : List Char) : Option ℕ :=
  let rest := text.drop "PORTREVISION".length
  let rest := if rest.head? = some '?' then rest.tail else rest
  let digits := rest.tail.dropWhile isTab
  if "PORTREVISION".toList.isPrefixOf text && rest.head? = some '=' && digits ≠ [] && digits.all Char.isDigit then
    some (number digits)
  else none

def revisionOf (line : Line) : Option ℕ := line.tails.findSome? matchRevision

def uvMax : ℕ := 18446744073709551615

/-- What Perl prints for a sum that is no integer of its any more. -/
structure Perl where
  nv : ℕ → List Char
  nv_plain : ∀ n, ∀ c ∈ nv n, isTab c = false ∧ c ≠ '#'
  nv_exponent : ∀ n, uvMax < n → ¬ (nv n).all Char.isDigit

def Perl.print (perl : Perl) (n : ℕ) : List Char := if n ≤ uvMax then (toString n).toList else perl.nv n

/-- `/^CATEGORIES??=/ || /^PORTEPOCH??=/`: the last letter may be missing. -/
def isMarker (line : Line) : Bool :=
  ["CATEGORIES=", "CATEGORIE=", "PORTEPOCH=", "PORTEPOC="].any fun start => start.toList.isPrefixOf line

def isMaintainer (line : Line) : Bool := "MAINTAINER".toList.isPrefixOf line

def revisions (lines : List Line) : List ℕ := (lines.takeWhile fun line => !isMaintainer line).filterMap revisionOf

def assign : List Char := "PORTREVISION=".toList
def assignDefault : List Char := "PORTREVISION?=".toList

/-- The second loop, with `$printedrev`. -/
def step (revision : List Char) (printed : Bool) (line : Line) : Bool × List Line :=
  if printed then (true, [line])
  else
    let inserted := if isMarker line then [assign ++ '\t' :: revision] else []
    if assignDefault.isPrefixOf line then (true, inserted ++ [assignDefault ++ '\t' :: revision])
    else if assign.isPrefixOf line then (true, inserted ++ [assign ++ '\t' :: revision])
    else (isMarker line, inserted ++ [line])

def bumpMakefile (perl : Perl) (lines : List Line) : List Line :=
  (scan (step (perl.print (1 + (revisions lines).sum))) false lines).2

/-- `PORTREVISION=` or `PORTREVISION?=`, blanks and a number, after which there may be blanks and a comment. -/
structure Assignment where
  optional : Bool
  blanks : List Char
  digits : List Char
  trail : List Char
  blanks_tabs : blanks.all isTab
  digits_nonempty : digits ≠ []
  digits_digits : digits.all Char.isDigit
  trail_ignored : ∀ c ∈ (trail.dropWhile isTab).head?, c = '#'

def operator (optional : Bool) : List Char := if optional then assignDefault else assign

def Assignment.line (a : Assignment) : Line := operator a.optional ++ (a.blanks ++ (a.digits ++ a.trail))

def isAssignment (line : Line) : Bool := assignDefault.isPrefixOf line || assign.isPrefixOf line

/-- A Makefile with categories and at most one assignment to `PORTREVISION`. -/
structure Makefile where
  before : List Line
  assignment : Option Assignment
  after : List Line
  categories : ∃ line ∈ before ++ after, "CATEGORIES=".toList <+: line
  alone : ∀ line ∈ before ++ after, isAssignment line = false
  placed : assignment.isSome → ∀ line ∈ before, isMaintainer line = false

def Makefile.lines (m : Makefile) : List Line := m.before ++ (m.assignment.map (·.line)).toList ++ m.after

def Makefile.value (m : Makefile) : ℕ := (m.assignment.map fun a => number a.digits).getD 0

/-- The only assignment is one of the next number, and all other lines are as they were. -/
def Bumped (m : Makefile) (out : List Line) : Prop :=
  ∃ (front back : List Line) (a : Assignment), out = front ++ a.line :: back ∧ front ++ back = m.before ++ m.after ∧
    number a.digits = m.value + 1

/-- The assignment comes first, and only its number is read. -/
structure Ahead (m : Makefile) : Prop where
  first : m.assignment.isSome → ∀ line ∈ m.before, isMarker line = false
  sum : (revisions m.lines).sum = m.value
  small : m.value < uvMax

section Lines

theorem marker_not_assignment {line : Line} (h : isMarker line) : isAssignment line = false := by
  rw [Bool.eq_false_iff]
  intro hassign
  simp only [isMarker, isAssignment, List.any_cons, List.any_nil, Bool.or_false, Bool.or_eq_true,
    List.isPrefixOf_iff_prefix] at h hassign
  have hpair : ∀ p q : List Char, p <+: line → q <+: line → p <+: q ∨ q <+: p :=
    fun p q hp hq => List.prefix_or_prefix_of_prefix hp hq
  rcases hassign with hq | hq <;> rcases h with hp | hp | hp | hp <;>
    exact absurd (hpair _ _ hp hq) (by decide)

theorem operator_isAssignment (optional : Bool) (rest : List Char) : isAssignment (operator optional ++ rest) := by
  unfold isAssignment operator
  split_ifs <;> simp

theorem assignDefault_apart (rest : List Char) : assignDefault.isPrefixOf (assign ++ rest) = false := by
  rw [Bool.eq_false_iff]
  intro h
  have hpair := List.prefix_or_prefix_of_prefix (List.isPrefixOf_iff_prefix.1 h) (List.prefix_append assign rest)
  exact absurd hpair (by decide)

theorem operator_inj {o o' : Bool} {x y : List Char} (h : operator o ++ x = operator o' ++ y) : x = y := by
  have hpair := List.prefix_or_prefix_of_prefix (List.prefix_append (operator o) x)
    (h ▸ List.prefix_append (operator o') y)
  have hsame : o = o' := by
    cases o <;> cases o' <;> first
      | rfl
      | exact absurd hpair (by decide)
  exact List.append_cancel_left (hsame ▸ h)

theorem not_tab_of_digit {c : Char} (h : c.isDigit) : isTab c = false := by
  rw [Bool.eq_false_iff]
  intro htab
  simp only [isTab, Bool.or_eq_true, decide_eq_true_eq] at htab
  rcases htab with rfl | rfl <;> cases h

theorem line_digits {a : Assignment} {optional : Bool} {rev : List Char} (hrev : ∀ c ∈ rev, isTab c = false ∧ c ≠ '#')
    (h : a.line = operator optional ++ '\t' :: rev) : a.digits = rev := by
  have hvalue : a.digits ++ a.trail = rev := by
    have hdrop := congrArg (List.dropWhile isTab) (operator_inj h)
    obtain ⟨d, ds, hds⟩ := List.exists_cons_of_ne_nil a.digits_nonempty
    have hdigit := not_tab_of_digit (List.all_eq_true.1 a.digits_digits d (hds ▸ List.mem_cons_self))
    have hplain : rev.dropWhile isTab = rev := by
      cases rev with
      | nil => rfl
      | cons c cs => exact List.dropWhile_cons_of_neg (by simp [(hrev c List.mem_cons_self).1])
    rw [List.dropWhile_append_of_pos (List.all_eq_true.1 a.blanks_tabs), hds, List.cons_append,
      List.dropWhile_cons_of_neg (by simp [hdigit]), List.dropWhile_cons_of_pos rfl, hplain] at hdrop
    rw [hds, List.cons_append, hdrop]
  cases htrail : a.trail with
  | nil => rw [← hvalue, htrail, List.append_nil]
  | cons c trail =>
    obtain ⟨htab, hhash⟩ := hrev c (by simp [← hvalue, htrail])
    have hignored := a.trail_ignored
    rw [htrail, List.dropWhile_cons_of_neg (by simp [htab])] at hignored
    exact absurd (hignored c rfl) hhash

theorem Perl.print_plain (perl : Perl) (n : ℕ) : ∀ c ∈ perl.print n, isTab c = false ∧ c ≠ '#' := by
  unfold Perl.print
  split_ifs
  · intro c hc
    have hdigit := toString_isDigit n c hc
    refine ⟨not_tab_of_digit hdigit, ?_⟩
    rintro rfl
    cases hdigit
  · exact perl.nv_plain n

end Lines

section Loop
variable (revision : List Char)

def written (optional : Bool) : Line := operator optional ++ '\t' :: revision

theorem scan_printed (lines : List Line) : scan (step revision) true lines = (true, lines) := by
  rw [scan_steady (step revision) (fun line => [line]) fun line _ => rfl, List.flatMap_singleton']

variable {revision}

theorem scan_plain {lines : List Line} (hmarker : ∀ line ∈ lines, isMarker line = false)
    (hassign : ∀ line ∈ lines, isAssignment line = false) : scan (step revision) false lines = (false, lines) := by
  have hstep : ∀ line ∈ lines, step revision false line = (false, [line]) := by
    intro line hline
    have hnone := hassign line hline
    rw [isAssignment, Bool.or_eq_false_iff] at hnone
    simp [step, hmarker line hline, hnone.1, hnone.2]
  rw [scan_steady (step revision) (fun line => [line]) hstep, List.flatMap_singleton']

theorem scan_inserted {before after : List Line} {marker : Line} (hmarker : ∀ line ∈ before, isMarker line = false)
    (hassign : ∀ line ∈ before, isAssignment line = false) (h : isMarker marker) :
    (scan (step revision) false (before ++ marker :: after)).2 = before ++ written revision false :: marker :: after := by
  have hnone := marker_not_assignment h
  rw [isAssignment, Bool.or_eq_false_iff] at hnone
  have hstep : step revision false marker = (true, [written revision false, marker]) := by
    simp [step, h, hnone.1, hnone.2, written, operator]
  rw [scan_append, scan_plain hmarker hassign, scan_cons, hstep, scan_printed]
  rfl

theorem scan_replaced {before after : List Line} (hmarker : ∀ line ∈ before, isMarker line = false)
    (hassign : ∀ line ∈ before, isAssignment line = false) (optional : Bool) (rest : List Char) :
    (scan (step revision) false (before ++ (operator optional ++ rest) :: after)).2 =
      before ++ written revision optional :: after := by
  have hline := operator_isAssignment optional rest
  have hnone : isMarker (operator optional ++ rest) = false := by
    rw [Bool.eq_false_iff]
    intro h
    rw [marker_not_assignment h] at hline
    cases hline
  have hstep : step revision false (operator optional ++ rest) = (true, [written revision optional]) := by
    cases optional with
    | true =>
      have hstart : assignDefault.isPrefixOf (operator true ++ rest) :=
        List.isPrefixOf_iff_prefix.2 (List.prefix_append assignDefault rest)
      simp only [step, hnone, hstart, Bool.false_eq_true, if_true, if_false, List.nil_append]
      rfl
    | false =>
      have hstart : assign.isPrefixOf (operator false ++ rest) :=
        List.isPrefixOf_iff_prefix.2 (List.prefix_append assign rest)
      have hdefault : assignDefault.isPrefixOf (operator false ++ rest) = false := assignDefault_apart rest
      simp only [step, hnone, hstart, hdefault, Bool.false_eq_true, if_true, if_false, List.nil_append]
      rfl
  rw [scan_append, scan_plain hmarker hassign, scan_cons, hstep, scan_printed]
  rfl

end Loop

section Bumps
variable {perl : Perl} {m : Makefile}

theorem bumped_iff {front back : List Line} (h : front ++ back = m.before ++ m.after) (optional : Bool) {rev : List Char}
    (hrev : ∀ c ∈ rev, isTab c = false ∧ c ≠ '#') : Bumped m (front ++ written rev optional :: back) ↔
      rev ≠ [] ∧ rev.all Char.isDigit ∧ number rev = m.value + 1 := by
  constructor
  · rintro ⟨front', back', a, hout, -, hnumber⟩
    have hmem : a.line ∈ front ++ written rev optional :: back := by simp [hout]
    have hline : a.line = written rev optional := by
      by_contra hne
      have hother : a.line ∈ m.before ++ m.after := by
        rw [← h]
        simpa [hne] using hmem
      have hassign : isAssignment a.line := operator_isAssignment a.optional _
      rw [m.alone _ hother] at hassign
      cases hassign
    rw [← line_digits hrev hline]
    exact ⟨a.digits_nonempty, a.digits_digits, hnumber⟩
  · rintro ⟨hne, hdigits, hnumber⟩
    refine ⟨front, back, ⟨optional, ['\t'], rev, [], rfl, hne, hdigits, fun c hc => by cases hc⟩, ?_, h, hnumber⟩
    simp [Assignment.line, written]

theorem print_iff (n k : ℕ) :
    (perl.print n ≠ [] ∧ (perl.print n).all Char.isDigit ∧ number (perl.print n) = k) ↔ n = k ∧ n ≤ uvMax := by
  unfold Perl.print
  split_ifs with h
  · have hdigits : (toString n).toList.all Char.isDigit := List.all_eq_true.2 (toString_isDigit n)
    exact ⟨fun hk => ⟨(toString_value n).symm.trans hk.2.2, h⟩,
      fun hk => ⟨toString_ne_nil n, hdigits, (toString_value n).trans hk.1⟩⟩
  · simp [h, perl.nv_exponent n (Nat.lt_of_not_le h)]

theorem first_marker {lines : List Line} (h : ∃ line ∈ lines, isMarker line) :
    ∃ before marker after, lines = before ++ marker :: after ∧ (∀ line ∈ before, isMarker line = false) ∧
      isMarker marker := by
  obtain ⟨marker, hmarker⟩ := Option.isSome_iff_exists.1 (List.find?_isSome.2 h)
  obtain ⟨his, before, after, hlines, hbefore⟩ := List.find?_eq_some_iff_append.1 hmarker
  exact ⟨before, marker, after, hlines, fun line hline => by simpa using hbefore line hline, his⟩

theorem categories_marker {line : Line} (h : "CATEGORIES=".toList <+: line) : isMarker line :=
  List.any_eq_true.2 ⟨"CATEGORIES=", List.mem_cons_self, List.isPrefixOf_iff_prefix.2 h⟩

theorem sum_iff (lines : List Line) : (1 + (revisions lines).sum = m.value + 1 ∧ 1 + (revisions lines).sum ≤ uvMax) ↔
    (revisions lines).sum = m.value ∧ m.value < uvMax := by
  omega

/-- The revision is bumped just where its assignment comes first and no other number counts. -/
theorem bumpMakefile_iff (perl : Perl) (m : Makefile) : Bumped m (bumpMakefile perl m.lines) ↔ Ahead m := by
  have hplain := perl.print_plain (1 + (revisions m.lines).sum)
  have hbefore : ∀ line ∈ m.before, isAssignment line = false := fun line hline =>
    m.alone line (List.mem_append_left _ hline)
  unfold bumpMakefile
  cases hassign : m.assignment with
  | none =>
    have hlines : m.lines = m.before ++ m.after := by simp [Makefile.lines, hassign]
    obtain ⟨line, hline, hcategories⟩ := m.categories
    obtain ⟨before, marker, after, hsplit, hmarker, his⟩ := first_marker ⟨line, hline, categories_marker hcategories⟩
    have hfree : ∀ line ∈ before, isAssignment line = false := fun line hline =>
      m.alone line (by simp [hsplit, hline])
    generalize hrev : perl.print (1 + (revisions m.lines).sum) = rev at hplain
    rw [hlines, hsplit, scan_inserted hmarker hfree his, bumped_iff hsplit.symm false hplain, ← hrev, print_iff, sum_iff]
    exact ⟨fun h => ⟨by simp [hassign], h.1, h.2⟩, fun h => ⟨h.sum, h.small⟩⟩
  | some a =>
    have hlines : m.lines = m.before ++ a.line :: m.after := by simp [Makefile.lines, hassign]
    generalize hrev : perl.print (1 + (revisions m.lines).sum) = rev at hplain
    by_cases hfirst : ∀ line ∈ m.before, isMarker line = false
    · rw [hlines, Assignment.line, scan_replaced hfirst hbefore, bumped_iff rfl a.optional hplain, ← hrev,
        print_iff, sum_iff]
      exact ⟨fun h => ⟨fun _ => hfirst, h.1, h.2⟩, fun h => ⟨h.sum, h.small⟩⟩
    · constructor
      · -- the old assignment stays beside the new one
        rintro ⟨front, back, b, hout, hrest, -⟩
        have hmarkers : ∃ line ∈ m.before, isMarker line := by simpa using hfirst
        obtain ⟨before, marker, after, hsplit, hmarker, his⟩ := first_marker hmarkers
        have hfree : ∀ line ∈ before, isAssignment line = false := fun line hline =>
          hbefore line (by simp [hsplit, hline])
        rw [hlines, hsplit, List.append_assoc, List.cons_append, scan_inserted hmarker hfree his] at hout
        have hlength := congrArg List.length hout
        have hothers := congrArg List.length hrest
        simp only [hsplit, List.length_append, List.length_cons] at hlength hothers
        omega
      · exact fun h => absurd (h.first (by simp [hassign])) hfirst

def revisionLast : Makefile where
  before := ["CATEGORIES=\tmisc".toList]
  assignment := some ⟨false, ['\t'], ['2'], [], rfl, by decide, rfl, nofun⟩
  after := ["MAINTAINER=\tports".toList]
  categories := ⟨_, List.mem_cons_self, by decide⟩
  alone := by decide
  placed := by decide

def samplePerl : Perl where
  nv _ := "1e+20".toList
  nv_plain _ := List.forall_iff_forall_mem.1 (by decide)
  nv_exponent _ _ := by decide

theorem revision_twice : ¬ Bumped revisionLast (bumpMakefile samplePerl revisionLast.lines) := by
  rintro ⟨front, back, a, hout, hrest, -⟩
  have hlength : (bumpMakefile samplePerl revisionLast.lines).length = 4 := by decide
  have hothers : (front ++ back).length = 2 := by
    rw [hrest]
    rfl
  rw [hout] at hlength
  simp only [List.length_append, List.length_cons] at hlength hothers
  omega

end Bumps
end Mports.RevisionBump
