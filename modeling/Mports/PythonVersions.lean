import Mathlib.Algebra.Order.Ring.Nat
import Mathlib.Data.List.Nodup
import Mports.MakeWords
import Mports.PerlText

set_option autoImplicit false

/-!
python.mk: the version of Python that a port gets, from the requirement in USES, the defaults and
the flavor.
-/
namespace Mports.PythonVersions
open MakeWords

abbrev Text := List Char

section Modifiers

def isOne (c : Char) : Bool := '1' ≤ c && c ≤ '9'

/-- The ways in which a text begins with a match of `[1-9]\.[1-9]?[0-9]`, the longer one first, with what is behind it. -/
def versionAt : Text → List (Text × Text)
  | a :: '.' :: b :: c :: rest =>
    if isOne a then
      (if isOne b && c.isDigit then [([a, '.', b, c], rest)] else []) ++
        if b.isDigit then [([a, '.', b], c :: rest)] else []
    else []
  | [a, '.', b] => if isOne a && b.isDigit then [([a, '.', b], [])] else []
  | _ => []

/-- `C/^([1-9]\.[1-9]?[0-9])$/\1-\1/`. -/
def check (arg : Text) : Text := if (versionAt arg).any fun found => found.2 = [] then arg ++ '-' :: arg else arg

/-- `C/([1-9]\.[1-9]?[0-9])[-+].*/\1/`. -/
def beforeSign : Text → Text
  | [] => []
  | c :: text =>
    match (versionAt (c :: text)).find? fun found => found.2.head? = some '-' || found.2.head? = some '+' with
    | some found => found.1
    | none => c :: beforeSign text

def lastDash : Text → Option (Text × Text)
  | [] => none
  | c :: text => (lastDash text).or (if c = '-' then (versionAt text).head? else none)

/-- `C/.*-([1-9]\.[1-9]?[0-9])/\1/`. -/
def afterDash (text : Text) : Text :=
  match lastDash text with
  | some found => found.1 ++ found.2
  | none => text

def v1 : Text := "[1-9].[0-9]".toList
def v2 : Text := "[1-9].[1-9][0-9]".toList

/-- `${words:M[1-9].[0-9]}${words:M[1-9].[1-9][0-9]}`. -/
def versionsOnly (words : List Text) : Text :=
  [' '].intercalate (words.filter (strMatch v1)) ++ [' '].intercalate (words.filter (strMatch v2))

/-- `C/^([1-9]\.)([0-9])$/\10\2/:S/t$//`. -/
def comparable (version : Text) : Text :=
  let padded := match version with
    | [a, '.', b] => if isOne a && b.isDigit then [a, '.', '0', b] else version
    | _ => version
  if padded.getLast? = some 't' then padded.dropLast else padded

/-- The digits of a number and how many of them are behind the point. -/
def number (text : Text) : Option (ℕ × ℕ) :=
  match text.splitOn '.' with
  | [whole, fraction] =>
    if (whole ++ fraction).all Char.isDigit && whole ≠ [] then
      some (Nat.ofDigitChars 10 (whole ++ fraction) 0, fraction.length)
    else none
  | _ => none

/-- `<` of make, for numbers with a point. -/
def less (a b : Text) : Bool :=
  match number a, number b with
  | some (m, i), some (n, j) => m * 10 ^ j < n * 10 ^ i
  | _, _ => false

/-- `py${version:S/.//}`. -/
def flavorOf (version : Text) : Text := "py".toList ++ version.erase '.'

/-- `${FLAVOR:S/py//:C/(.)/\1./}`, of a flavor that begins so. -/
def ofFlavor (flavor : Text) : Text :=
  match flavor.drop 2 with
  | c :: rest => c :: '.' :: rest
  | [] => []

end Modifiers

structure Setting where
  pythonDefault : Text
  python2Default : Text
  versions : List Text
  args : List Text
  featureFlavors : Bool
  allFlavors : Bool
  flavors : List Text
  flavor : Text

structure Python where
  version : Option Text
  flavors : List Text
  flavor : Text
  ignore : Option Text
  deriving DecidableEq

section Selection
variable (s : Setting)

def pythonArgs : List Text :=
  let rest := s.args.filter fun word => word ∉ ["patch".toList, "build".toList, "run".toList, "test".toList, "env".toList]
  if rest = [] then ["3.11+".toList] else rest

def minimum : Text := versionsOnly ((pythonArgs s).map fun word => beforeSign (check word))
def maximum : Text := versionsOnly ((pythonArgs s).map fun word => afterDash (check word))

def specs : List Text :=
  [v1 ++ '-' :: v1, v1 ++ '-' :: v2, v2 ++ '-' :: v2, v1, v2, v1 ++ ['+'], v2 ++ ['+'], '-' :: v1, '-' :: v2]

def unknown : List Text := (pythonArgs s).filter fun word => !specs.any fun pattern => strMatch pattern word

def unsupported (version : Text) : Bool :=
  (minimum s ≠ [] && less (comparable version) (comparable (minimum s))) ||
    (maximum s ≠ [] && less (comparable (maximum s)) (comparable version))

def candidates : List Text := s.pythonDefault :: s.python2Default :: s.versions

def chosen : Option Text :=
  if unsupported s s.pythonDefault then (candidates s).find? fun version => !unsupported s version
  else some s.pythonDefault

def validVersions : List Text :=
  (candidates s).foldl (fun valid version =>
    if !unsupported s version && !hasMatch version valid then valid ++ [version] else valid) []

def allPythonFlavors : List Text :=
  if validVersions s ≠ [] then (validVersions s).map flavorOf else s.versions.map flavorOf

def generated : List Text :=
  if s.allFlavors then allPythonFlavors s
  else [s.pythonDefault, s.python2Default].foldl (fun flavors version =>
    if hasMatch (flavorOf version) (allPythonFlavors s) && !hasMatch (flavorOf version) flavors then
      flavors ++ [flavorOf version]
    else flavors) []

/-- `Mpy[23][0-9]`, `Mpy[23][1-9][0-9]` and `Mpy31[3-9]t`. -/
def flavored (flavor : Text) : Bool :=
  strMatch "py[23][0-9]".toList flavor || strMatch "py[23][1-9][0-9]".toList flavor || strMatch "py31[3-9]t".toList flavor

def python : Python :=
  let flavors := if s.flavors = [] && s.featureFlavors then generated s else s.flavors
  let flavor := if s.flavors = [] && s.featureFlavors && flavors ≠ [] && s.flavor = [] then flavors.headD [] else s.flavor
  { version := if flavored flavor then some (ofFlavor flavor) else chosen s
    flavors := flavors
    flavor := flavor
    ignore := if chosen s = none then some "needs an unsupported version of Python".toList
      else if unknown s ≠ [] then some ("uses unknown USES=python arguments: ".toList ++ [' '].intercalate (unknown s))
      else none }

def isBad (c : Char) : Bool := !(c.isLower || c.isDigit || c = '_')

def flavorErrors (flavors : List Text) : List Text :=
  let bad := flavors.filter fun flavor => flavor.any isBad
  (if hasMatch "all".toList flavors then ["FLAVORS cannot contain 'all', it is a reserved value".toList] else []) ++
    if bad ≠ [] then ["FLAVORS contains flavors that are not all [a-z0-9_]: ".toList ++ [' '].intercalate bad] else []

/-- The flavor is looked up in bsd.mport.mk, and the one that nobody asked for goes first. -/
def served (requested : Text) (p : Python) : Python :=
  let ignore :=
    if p.flavor = [] then p.ignore
    else if p.flavors = [] then
      some ("FLAVOR is defined (to ".toList ++ p.flavor ++ ") while this port does not have FLAVORS".toList)
    else if hasMatch p.flavor p.flavors then p.ignore
    else some ("Unknown flavor '".toList ++ p.flavor ++ "', possible flavors: ".toList ++ [' '].intercalate p.flavors)
  let flavor := if p.flavor = [] then p.flavors.headD [] else p.flavor
  let flavors := if requested = [] && p.flavors ≠ [] && flavor ≠ [] then flavor :: excluding flavor p.flavors else p.flavors
  { p with flavors := flavors, flavor := flavor, ignore := ignore }

def build : Python := served s.flavor (python s)

end Selection

structure Version where
  major : Char
  minor : Text
  free : Bool
  first : isOne major = true
  second : (∃ b, minor = [b] ∧ b.isDigit = true ∧ free = false) ∨
    ∃ b c, minor = [b, c] ∧ isOne b = true ∧ c.isDigit = true

namespace Version

def text (v : Version) : Text := v.major :: '.' :: (v.minor ++ if v.free then ['t'] else [])

def Known (v : Version) : Prop :=
  (v.major = '2' ∨ v.major = '3') ∧ (v.free = true → v.major = '3' ∧ ∃ c, v.minor = ['1', c] ∧ '3' ≤ c ∧ c ≤ '9')

def rank (v : Version) : ℕ := Nat.ofDigitChars 10 [v.major] 0 * 100 + Nat.ofDigitChars 10 v.minor 0

end Version

inductive Requirement where
  | exactly (v : Version)
  | between (v w : Version)
  | atLeast (v : Version)
  | atMost (v : Version)

namespace Requirement

def text : Requirement → Text
  | exactly v => v.text
  | between v w => v.text ++ '-' :: w.text
  | atLeast v => v.text ++ ['+']
  | atMost v => '-' :: v.text

def lower : Requirement → Option Version
  | exactly v | between v _ | atLeast v => some v
  | atMost _ => none

def upper : Requirement → Option Version
  | exactly v | between _ v | atMost v => some v
  | atLeast _ => none

/-- No free-threaded build is asked for, and a range does not go from two digits to one. -/
def Legal : Requirement → Prop
  | exactly v | atLeast v | atMost v => v.free = false
  | between v w => v.free = false ∧ w.free = false ∧ v.minor.length ≤ w.minor.length

def allows (r : Requirement) (v : Version) : Bool :=
  (r.lower.all fun least => least.rank ≤ v.rank) && r.upper.all fun most => v.rank ≤ most.rank

end Requirement

/-- What python.mk relies on: one requirement that it can read, versions that it knows, and no flavors of the port's own. -/
structure Orderly (s : Setting) (r : Requirement) (vs : List Version) : Prop where
  requirement : pythonArgs s = [r.text]
  legal : r.Legal
  versions : candidates s = vs.map Version.text
  known : ∀ v ∈ vs, v.Known
  unflavored : s.flavors = []

section Numbers
variable {v w : Version}

theorem isOne_digit {c : Char} (h : isOne c = true) : c.isDigit = true := by
  simp only [isOne, Bool.and_eq_true, decide_eq_true_eq] at h
  simp only [Char.isDigit, Bool.and_eq_true, decide_eq_true_eq]
  have hzero : '0' ≤ c := Char.le_trans (by decide : '0' ≤ '1') h.1
  exact ⟨hzero, h.2⟩

theorem digit_ne {c d : Char} (h : c.isDigit = true) (hd : d.isDigit = false) : c ≠ d := by
  rintro rfl
  rw [hd] at h
  cases h

theorem number_point {a b c : Char} (ha : a.isDigit = true) (hb : b.isDigit = true) (hc : c.isDigit = true) :
    number [a, '.', b, c] = some (Nat.ofDigitChars 10 [a] 0 * 100 + Nat.ofDigitChars 10 [b, c] 0, 2) := by
  have hsplit : [a, '.', b, c].splitOn '.' = [[a], [b, c]] := by
    have hfirst : [a, '.', b, c] = [a] ++ '.' :: [b, c] := rfl
    have hnot : '.' ∉ [a] := by simpa using (digit_ne ha (by decide)).symm
    have hrest : '.' ∉ [b, c] := by
      simp only [List.mem_cons, List.not_mem_nil, or_false, not_or]
      exact ⟨(digit_ne hb (by decide)).symm, (digit_ne hc (by decide)).symm⟩
    rw [hfirst, List.splitOn_append_cons_self_of_not_mem hnot, List.splitOn_eq_singleton hrest]
  have hvalue : Nat.ofDigitChars 10 [a, b, c] 0 = Nat.ofDigitChars 10 [a] 0 * 100 + Nat.ofDigitChars 10 [b, c] 0 := by
    simp only [Nat.ofDigitChars_cons, Nat.ofDigitChars_nil]
    omega
  unfold number
  rw [hsplit]
  simp [ha, hb, hc, hvalue]

theorem number_comparable (v : Version) : number (comparable v.text) = some (v.rank, 2) := by
  have ha := isOne_digit v.first
  obtain ⟨b, hminor, hb, hfree⟩ | ⟨b, c, hminor, hb, hc⟩ := v.second
  · have hcomparable : comparable v.text = [v.major, '.', '0', b] := by
      unfold comparable Version.text
      simp [hminor, hfree, v.first, hb, digit_ne hb (by decide : 't'.isDigit = false)]
    rw [hcomparable, number_point ha (by decide) hb, Version.rank, hminor]
    simp [Nat.ofDigitChars_cons]
  · have hcomparable : comparable v.text = [v.major, '.', b, c] := by
      unfold comparable Version.text
      cases hfree : v.free with
      | false => simp [hminor, digit_ne hc (by decide : 't'.isDigit = false)]
      | true => simp [hminor]
    rw [hcomparable, number_point ha (isOne_digit hb) hc, Version.rank, hminor]

theorem less_iff (v w : Version) : less (comparable v.text) (comparable w.text) = true ↔ v.rank < w.rank := by
  unfold less
  rw [number_comparable, number_comparable]
  simp

end Numbers

section Patterns

theorem ranged {low high c : Char} (h : low < high) : (low ≤ c && c ≤ high || (high ≤ c && c ≤ low)) = (low ≤ c && c ≤ high) := by
  have hnever : ¬ (high ≤ c ∧ c ≤ low) := fun hboth =>
    absurd (Char.le_trans hboth.1 hboth.2) (Char.not_le.2 h)
  rw [Bool.eq_iff_iff]
  simp only [Bool.or_eq_true, Bool.and_eq_true, decide_eq_true_eq]
  exact or_iff_left hnever

theorem class_one : (fun c : Char => (false || ('1' ≤ c && c ≤ '9') || ('9' ≤ c && c ≤ '1')) != false) = isOne := by
  funext c
  rw [Bool.false_or, ranged (by decide), Bool.bne_false]
  rfl

theorem class_digit : (fun c : Char => (false || ('0' ≤ c && c ≤ '9') || ('9' ≤ c && c ≤ '0')) != false) = Char.isDigit := by
  funext c
  rw [Bool.false_or, ranged (by decide), Bool.bne_false]
  rfl

theorem strMatch_v1 (text : Text) : strMatch v1 text = true ↔
    ∃ a b, text = [a, '.', b] ∧ isOne a = true ∧ b.isDigit = true := by
  have hpieces : pieces v1 = [.one isOne, .one (· = '.'), .one Char.isDigit] := by
    rw [← class_one, ← class_digit]
    rfl
  rw [strMatch, hpieces]
  constructor
  · intro h
    rcases text with _ | ⟨a, _ | ⟨dot, _ | ⟨b, _ | ⟨c, text⟩⟩⟩⟩
    · cases h
    · simp [fits] at h
    · simp [fits] at h
    · simp only [fits, Bool.and_eq_true, decide_eq_true_eq] at h
      obtain ⟨ha, rfl, hb, -⟩ := h
      exact ⟨a, b, rfl, ha, hb⟩
    · simp [fits] at h
  · rintro ⟨a, b, rfl, ha, hb⟩
    simp [fits, ha, hb]

theorem strMatch_v2 (text : Text) : strMatch v2 text = true ↔
    ∃ a b c, text = [a, '.', b, c] ∧ isOne a = true ∧ isOne b = true ∧ c.isDigit = true := by
  have hpieces : pieces v2 = [.one isOne, .one (· = '.'), .one isOne, .one Char.isDigit] := by
    rw [← class_one, ← class_digit]
    rfl
  rw [strMatch, hpieces]
  constructor
  · intro h
    rcases text with _ | ⟨a, _ | ⟨dot, _ | ⟨b, _ | ⟨c, _ | ⟨d, text⟩⟩⟩⟩⟩
    · cases h
    · simp [fits] at h
    · simp [fits] at h
    · simp [fits] at h
    · simp only [fits, Bool.and_eq_true, decide_eq_true_eq] at h
      obtain ⟨ha, rfl, hb, hc, -⟩ := h
      exact ⟨a, b, c, rfl, ha, hb, hc⟩
    · simp [fits] at h
  · rintro ⟨a, b, c, rfl, ha, hb, hc⟩
    simp [fits, ha, hb, hc]

end Patterns

section Requirements

variable {v w : Version}

theorem text_plain (h : v.free = false) : v.text = v.major :: '.' :: v.minor := by
  rw [Version.text, h, if_neg Bool.false_ne_true, List.append_nil]

theorem versionAt_text (h : v.free = false) (rest : Text) (hrest : ∀ c ∈ rest.head?, c.isDigit = false) :
    ∃ others, versionAt (v.text ++ rest) = (v.text, rest) :: others ∧
      ∀ found ∈ others, ∃ c, c.isDigit = true ∧ found.2 = c :: rest := by
  have ha := v.first
  rw [text_plain h]
  obtain ⟨b, hminor, hb, -⟩ | ⟨b, c, hminor, hb, hc⟩ := v.second
  · rw [hminor]
    cases rest with
    | nil => exact ⟨[], by simp [versionAt, ha, hb], nofun⟩
    | cons d rest => exact ⟨[], by simp [versionAt, ha, hb, hrest d rfl], nofun⟩
  · rw [hminor]
    refine ⟨[([v.major, '.', b], c :: rest)], by simp [versionAt, ha, hb, hc, isOne_digit hb], ?_⟩
    exact List.forall_mem_singleton.2 ⟨c, hc, rfl⟩

theorem versionAt_other {c : Char} (h : isOne c = false) (text : Text) : versionAt (c :: text) = [] := by
  unfold versionAt
  split <;> simp_all

theorem beforeSign_skip {c : Char} {text : Text} (h : versionAt (c :: text) = []) :
    beforeSign (c :: text) = c :: beforeSign text := by
  rw [beforeSign, h, List.find?_nil]

theorem beforeSign_sign (h : v.free = false) {sign : Char} {rest : Text} (hsign : sign = '-' ∨ sign = '+') :
    beforeSign (v.text ++ sign :: rest) = v.text := by
  have hdigit : ∀ c ∈ (sign :: rest).head?, c.isDigit = false := by
    intro c hc
    cases hc
    rcases hsign with rfl | rfl <;> rfl
  obtain ⟨others, hfirst, -⟩ := versionAt_text h _ hdigit
  have htext : v.text ++ sign :: rest = v.major :: ('.' :: (v.minor ++ sign :: rest)) := by
    rw [text_plain h]
    rfl
  rw [htext, beforeSign, ← htext, hfirst, List.find?_cons_of_pos (by rcases hsign with rfl | rfl <;> rfl)]

theorem text_dash (h : v.free = false) : '-' ∉ v.text := by
  rw [text_plain h]
  obtain ⟨b, hminor, hb, -⟩ | ⟨b, c, hminor, hb, hc⟩ := v.second
  · rw [hminor]
    simp [(digit_ne (isOne_digit v.first) (by decide : '-'.isDigit = false)).symm, (digit_ne hb (by decide : '-'.isDigit = false)).symm]
  · rw [hminor]
    simp [(digit_ne (isOne_digit v.first) (by decide : '-'.isDigit = false)).symm,
      (digit_ne (isOne_digit hb) (by decide : '-'.isDigit = false)).symm, (digit_ne hc (by decide : '-'.isDigit = false)).symm]

theorem lastDash_none {text : Text} (h : '-' ∉ text) : lastDash text = none := by
  induction text with
  | nil => rfl
  | cons c text ih =>
    obtain ⟨hc, htext⟩ := not_or.1 (mt List.mem_cons.2 h)
    rw [lastDash, ih htext, if_neg fun heq => hc heq.symm]
    rfl

theorem lastDash_text (h : w.free = false) (front : Text) : lastDash (front ++ '-' :: w.text) = some (w.text, []) := by
  induction front with
  | nil =>
    obtain ⟨others, hfirst, -⟩ := versionAt_text h [] nofun
    rw [List.append_nil] at hfirst
    rw [List.nil_append, lastDash, lastDash_none (text_dash h), if_pos rfl, hfirst]
    rfl
  | cons c front ih =>
    rw [List.cons_append, lastDash, ih]
    rfl

theorem afterDash_text (h : w.free = false) (front : Text) : afterDash (front ++ '-' :: w.text) = w.text := by
  rw [afterDash, lastDash_text h]
  exact List.append_nil _

theorem versionsOnly_text (h : v.free = false) : versionsOnly [v.text] = v.text := by
  unfold versionsOnly
  rw [text_plain h]
  obtain ⟨b, hminor, hb, -⟩ | ⟨b, c, hminor, hb, hc⟩ := v.second
  · have hone : strMatch v1 [v.major, '.', b] = true := (strMatch_v1 _).2 ⟨_, _, rfl, v.first, hb⟩
    have htwo : ¬ strMatch v2 [v.major, '.', b] = true := fun hmatch => by
      obtain ⟨_, _, _, heq, -⟩ := (strMatch_v2 _).1 hmatch
      simp at heq
    rw [hminor, List.filter_cons_of_pos hone, List.filter_cons_of_neg htwo]
    simp
  · have hone : ¬ strMatch v1 [v.major, '.', b, c] = true := fun hmatch => by
      obtain ⟨_, _, heq, -⟩ := (strMatch_v1 _).1 hmatch
      simp at heq
    have htwo : strMatch v2 [v.major, '.', b, c] = true := (strMatch_v2 _).2 ⟨_, _, _, rfl, v.first, hb, hc⟩
    rw [hminor, List.filter_cons_of_neg hone, List.filter_cons_of_pos htwo]
    simp

theorem versionsOnly_sign {text : Text} (h : '-' ∈ text ∨ '+' ∈ text) : versionsOnly [text] = [] := by
  have hplain : ∀ c ∈ text, c = '.' ∨ c.isDigit = true → c ≠ '-' ∧ c ≠ '+' := by
    rintro c - (rfl | hc)
    · decide
    · exact ⟨digit_ne hc (by decide), digit_ne hc (by decide)⟩
  have hno : (∀ c ∈ text, c = '.' ∨ c.isDigit = true) → False := fun hall => by
    rcases h with h | h
    · exact (hplain _ h (hall _ h)).1 rfl
    · exact (hplain _ h (hall _ h)).2 rfl
  have hone : ¬ strMatch v1 text = true := fun hmatch => by
    obtain ⟨a, b, rfl, ha, hb⟩ := (strMatch_v1 _).1 hmatch
    refine hno ?_
    simp [isOne_digit ha, hb]
  have htwo : ¬ strMatch v2 text = true := fun hmatch => by
    obtain ⟨a, b, c, rfl, ha, hb, hc⟩ := (strMatch_v2 _).1 hmatch
    refine hno ?_
    simp [isOne_digit ha, isOne_digit hb, hc]
  rw [versionsOnly, List.filter_cons_of_neg hone, List.filter_cons_of_neg htwo]
  rfl

theorem check_text (h : v.free = false) : check v.text = v.text ++ '-' :: v.text := by
  obtain ⟨others, hfirst, -⟩ := versionAt_text h [] nofun
  rw [List.append_nil] at hfirst
  rw [check, hfirst, if_pos (by simp)]

theorem check_longer (h : v.free = false) {c : Char} {rest : Text} (hc : c.isDigit = false) :
    check (v.text ++ c :: rest) = v.text ++ c :: rest := by
  obtain ⟨others, hfirst, hothers⟩ := versionAt_text h (c :: rest) (by rintro d hd; cases hd; exact hc)
  rw [check, hfirst, if_neg]
  simp only [List.any_cons, List.any_eq_true, Bool.or_eq_true, decide_eq_true_eq, reduceCtorEq, false_or]
  rintro ⟨found, hfound, hnil⟩
  obtain ⟨d, -, heq⟩ := hothers found hfound
  rw [hnil] at heq
  cases heq

variable {s : Setting} {r : Requirement}

theorem minimum_eq (hr : pythonArgs s = [r.text]) (hlegal : r.Legal) : minimum s = r.lower.elim [] Version.text := by
  unfold minimum
  rw [hr]
  cases r with
  | exactly v =>
    change versionsOnly [beforeSign (check v.text)] = v.text
    rw [check_text hlegal, beforeSign_sign hlegal (.inl rfl), versionsOnly_text hlegal]
  | between v w =>
    change versionsOnly [beforeSign (check (v.text ++ '-' :: w.text))] = v.text
    rw [check_longer hlegal.1 (by decide), beforeSign_sign hlegal.1 (.inl rfl), versionsOnly_text hlegal.1]
  | atLeast v =>
    change versionsOnly [beforeSign (check (v.text ++ ['+']))] = v.text
    rw [check_longer hlegal (by decide), beforeSign_sign hlegal (.inr rfl), versionsOnly_text hlegal]
  | atMost v =>
    change versionsOnly [beforeSign (check ('-' :: v.text))] = []
    have hcheck : check ('-' :: v.text) = '-' :: v.text := by
      rw [check, versionAt_other (by decide)]
      rfl
    rw [hcheck, beforeSign_skip (versionAt_other (by decide) _), versionsOnly_sign (.inl (List.mem_cons_self ..))]

theorem maximum_eq (hr : pythonArgs s = [r.text]) (hlegal : r.Legal) : maximum s = r.upper.elim [] Version.text := by
  unfold maximum
  rw [hr]
  cases r with
  | exactly v =>
    change versionsOnly [afterDash (check v.text)] = v.text
    rw [check_text hlegal, afterDash_text hlegal, versionsOnly_text hlegal]
  | between v w =>
    change versionsOnly [afterDash (check (v.text ++ '-' :: w.text))] = w.text
    rw [check_longer hlegal.1 (by decide), afterDash_text hlegal.2.1, versionsOnly_text hlegal.2.1]
  | atLeast v =>
    change versionsOnly [afterDash (check (v.text ++ ['+']))] = []
    have hdash : '-' ∉ v.text ++ ['+'] := by
      rw [List.mem_append, not_or]
      exact ⟨text_dash hlegal, by decide⟩
    rw [check_longer hlegal (by decide), afterDash, lastDash_none hdash, versionsOnly_sign (.inr (by simp))]
  | atMost v =>
    change versionsOnly [afterDash (check ('-' :: v.text))] = v.text
    have hcheck : check ('-' :: v.text) = '-' :: v.text := by
      rw [check, versionAt_other (by decide)]
      rfl
    have hfront := afterDash_text hlegal []
    rw [List.nil_append] at hfront
    rw [hcheck, hfront, versionsOnly_text hlegal]

theorem unsupported_eq (hr : pythonArgs s = [r.text]) (hlegal : r.Legal) (v : Version) : unsupported s v.text = !r.allows v := by
  have hnil : ∀ w : Version, w.text ≠ [] := fun w => List.cons_ne_nil _ _
  have hless : ∀ u w : Version, less (comparable u.text) (comparable w.text) = !decide (w.rank ≤ u.rank) := fun u w => by
    rw [Bool.eq_iff_iff, less_iff]
    simp
  unfold unsupported Requirement.allows
  rw [minimum_eq hr hlegal, maximum_eq hr hlegal]
  cases r <;> simp [Requirement.lower, Requirement.upper, hnil, hless, Bool.not_and]

theorem fits_both {ps qs : List Piece} {u w : Text} (hu : fits ps u = true) (hw : fits qs w = true) :
    fits (ps ++ qs) (u ++ w) = true := by
  induction ps generalizing u with
  | nil =>
    have hnil : u = [] := by simpa [fits] using hu
    rwa [hnil]
  | cons piece ps ih =>
    cases piece with
    | any =>
      simp only [fits, List.any_eq_true, List.mem_tails] at hu
      obtain ⟨tail, ⟨front, rfl⟩, htail⟩ := hu
      simp only [List.cons_append, fits, List.any_eq_true, List.mem_tails]
      exact ⟨tail ++ w, ⟨front, (List.append_assoc ..).symm⟩, ih htail⟩
    | one p =>
      cases u with
      | nil => cases hu
      | cons c u =>
        simp only [fits, Bool.and_eq_true] at hu
        simp only [List.cons_append, fits, Bool.and_eq_true]
        exact ⟨hu.1, ih hu.2⟩

theorem strMatch_text (h : v.free = false) :
    (strMatch v1 v.text = true ∧ v.minor.length = 1) ∨ (strMatch v2 v.text = true ∧ v.minor.length = 2) := by
  rw [text_plain h]
  obtain ⟨b, hminor, hb, -⟩ | ⟨b, c, hminor, hb, hc⟩ := v.second
  · exact .inl ⟨(strMatch_v1 _).2 ⟨_, b, by rw [hminor], v.first, hb⟩, by rw [hminor]; rfl⟩
  · exact .inr ⟨(strMatch_v2 _).2 ⟨_, b, c, by rw [hminor], v.first, hb, hc⟩, by rw [hminor]; rfl⟩

theorem strMatch_v1_append {u rest word : Text} (hu : strMatch v1 u = true) (hrest : strMatch rest word = true) :
    strMatch (v1 ++ rest) (u ++ word) = true := fits_both hu hrest

theorem strMatch_v2_append {u rest word : Text} (hu : strMatch v2 u = true) (hrest : strMatch rest word = true) :
    strMatch (v2 ++ rest) (u ++ word) = true := fits_both hu hrest

theorem strMatch_dash {rest word : Text} (h : strMatch rest word = true) : strMatch ('-' :: rest) ('-' :: word) = true :=
  fits_both (by rfl : fits [.one (· = '-')] ['-'] = true) h

theorem unknown_eq (hr : pythonArgs s = [r.text]) (hlegal : r.Legal) : unknown s = [] := by
  have hsome : ∀ pattern, strMatch pattern r.text = true → pattern ∈ specs → unknown s = [] := fun pattern hmatch hmem => by
    have hany : (specs.any fun pattern => strMatch pattern r.text) = true := List.any_eq_true.2 ⟨pattern, hmem, hmatch⟩
    rw [unknown, hr, List.filter_cons_of_neg (by rw [hany]; exact Bool.false_ne_true), List.filter_nil]
  cases r with
  | exactly v =>
    rcases strMatch_text hlegal with ⟨hv, -⟩ | ⟨hv, -⟩
    · exact hsome v1 (hv) (by simp [specs])
    · exact hsome v2 (hv) (by simp [specs])
  | between v w =>
    obtain ⟨hfirst, hsecond, hlength⟩ := hlegal
    rcases strMatch_text hfirst with ⟨hv, hone⟩ | ⟨hv, htwo⟩ <;> rcases strMatch_text hsecond with ⟨hw, hone'⟩ | ⟨hw, htwo'⟩
    · exact hsome (v1 ++ '-' :: v1) (strMatch_v1_append hv (strMatch_dash hw)) (by simp [specs])
    · exact hsome (v1 ++ '-' :: v2) (strMatch_v1_append hv (strMatch_dash hw)) (by simp [specs])
    · omega
    · exact hsome (v2 ++ '-' :: v2) (strMatch_v2_append hv (strMatch_dash hw)) (by simp [specs])
  | atLeast v =>
    have hplus : strMatch ['+'] ['+'] = true := rfl
    rcases strMatch_text hlegal with ⟨hv, -⟩ | ⟨hv, -⟩
    · exact hsome (v1 ++ ['+']) (strMatch_v1_append hv hplus) (by simp [specs])
    · exact hsome (v2 ++ ['+']) (strMatch_v2_append hv hplus) (by simp [specs])
  | atMost v =>
    rcases strMatch_text hlegal with ⟨hv, -⟩ | ⟨hv, -⟩
    · exact hsome ('-' :: v1) (strMatch_dash hv) (by simp [specs])
    · exact hsome ('-' :: v2) (strMatch_dash hv) (by simp [specs])

end Requirements

section Flavors
variable {v w : Version}

theorem minor_digits (v : Version) : ∀ c ∈ v.minor, c.isDigit = true := by
  obtain ⟨b, hminor, hb, -⟩ | ⟨b, c, hminor, hb, hc⟩ := v.second
  · simpa [hminor] using hb
  · simpa [hminor] using ⟨isOne_digit hb, hc⟩

theorem text_chars {c : Char} (h : c ∈ v.text) : c = '.' ∨ c = 't' ∨ c.isDigit = true := by
  rcases List.mem_cons.1 h with rfl | h
  · exact .inr (.inr (isOne_digit v.first))
  rcases List.mem_cons.1 h with rfl | h
  · exact .inl rfl
  rcases List.mem_append.1 h with h | h
  · exact .inr (.inr (minor_digits v c h))
  · split_ifs at h
    · exact .inr (.inl (List.mem_singleton.1 h))
    · cases h

theorem flavorOf_text (v : Version) : flavorOf v.text = 'p' :: 'y' :: v.text.erase '.' := rfl

theorem text_erase (v : Version) : v.text.erase '.' = v.major :: (v.minor ++ if v.free then ['t'] else []) := by
  have hmajor : v.major ≠ '.' := digit_ne (isOne_digit v.first) (by decide)
  rw [Version.text, List.erase_cons_tail (by simpa using hmajor), List.erase_cons_head]

theorem plain_chars {text : Text} (h : ∀ c ∈ text, c ∈ ['p', 'y', '.', 't'] ∨ c.isDigit = true) : Plain text := by
  intro c hc
  rcases h c hc with hword | hdigit
  · exact (by decide : Plain ['p', 'y', '.', 't']) c hword
  · exact ⟨digit_ne hdigit (by decide), digit_ne hdigit (by decide), digit_ne hdigit (by decide), digit_ne hdigit (by decide)⟩

theorem text_plain_pattern (v : Version) : Plain v.text := plain_chars fun c hc => by
  rcases text_chars hc with rfl | rfl | hdigit
  · exact .inl (by decide)
  · exact .inl (by decide)
  · exact .inr hdigit

theorem flavor_plain_pattern (v : Version) : Plain (flavorOf v.text) := plain_chars fun c hc => by
  rw [flavorOf_text, List.mem_cons, List.mem_cons] at hc
  rcases hc with rfl | rfl | hc
  · exact .inl (by decide)
  · exact .inl (by decide)
  rcases text_chars (List.mem_of_mem_erase hc) with rfl | rfl | hdigit
  · exact .inl (by decide)
  · exact .inl (by decide)
  · exact .inr hdigit

theorem ofFlavor_flavorOf (v : Version) : ofFlavor (flavorOf v.text) = v.text := by
  rw [flavorOf_text, text_erase]
  rfl

theorem class_major : (fun c : Char => (false || c = '2' || c = '3') != false) = fun c => c = '2' || c = '3' := by
  funext c
  rw [Bool.bne_false, Bool.false_or]

theorem class_three : (fun c : Char => (false || ('3' ≤ c && c ≤ '9') || ('9' ≤ c && c ≤ '3')) != false) = fun c => '3' ≤ c && c ≤ '9' := by
  funext c
  rw [Bool.false_or, ranged (by decide), Bool.bne_false]

theorem flavored_flavorOf (h : v.Known) : flavored (flavorOf v.text) = true := by
  obtain ⟨hmajor, hfree⟩ := h
  have hmajor' : (decide (v.major = '2') || decide (v.major = '3')) = true := by
    rcases hmajor with h | h <;> simp [h]
  rw [flavored, flavorOf_text, text_erase, Bool.or_eq_true, Bool.or_eq_true]
  have hshort : pieces "py[23][0-9]".toList =
      [.one (· = 'p'), .one (· = 'y'), .one fun c => c = '2' || c = '3', .one Char.isDigit] := by
    rw [← class_major, ← class_digit]
    rfl
  have hlong : pieces "py[23][1-9][0-9]".toList =
      [.one (· = 'p'), .one (· = 'y'), .one fun c => c = '2' || c = '3', .one isOne, .one Char.isDigit] := by
    rw [← class_major, ← class_digit, ← class_one]
    rfl
  have hthreaded : pieces "py31[3-9]t".toList =
      [.one (· = 'p'), .one (· = 'y'), .one (· = '3'), .one (· = '1'), .one fun c => '3' ≤ c && c ≤ '9', .one (· = 't')] := by
    rw [← class_three]
    rfl
  cases hthreads : v.free with
  | true =>
    obtain ⟨hthree, c, hminor, hlow, hhigh⟩ := hfree hthreads
    refine .inr ?_
    rw [strMatch, hthreaded, hminor, hthree]
    simp [fits, hlow, hhigh]
  | false =>
    obtain ⟨b, hminor, hb, -⟩ | ⟨b, c, hminor, hb, hc⟩ := v.second
    · refine .inl (.inl ?_)
      rw [strMatch, hshort, hminor]
      simp only [fits, hmajor', hb, Bool.false_eq_true, if_false, List.append_nil]
      rfl
    · refine .inl (.inr ?_)
      rw [strMatch, hlong, hminor]
      simp only [fits, hmajor', hb, hc, Bool.false_eq_true, if_false, List.append_nil]
      rfl

end Flavors

section Lists
variable {α : Type} {keep : α → Bool} {key : α → Text}

def gather (keep : α → Bool) (key : α → Text) (l : List α) (found : List Text) : List Text :=
  l.foldl (fun found x => if keep x && !hasMatch (key x) found then found ++ [key x] else found) found

theorem gather_cons (x : α) (l : List α) (found : List Text) : gather keep key (x :: l) found =
    gather keep key l (if keep x && !hasMatch (key x) found then found ++ [key x] else found) := rfl

theorem mem_gather {l : List α} (hplain : ∀ x ∈ l, Plain (key x)) (found : List Text) (text : Text) :
    text ∈ gather keep key l found ↔ text ∈ found ∨ ∃ x ∈ l, keep x = true ∧ key x = text := by
  induction l generalizing found with
  | nil => simp [gather]
  | cons x l ih =>
    have hstep : text ∈ (if keep x && !hasMatch (key x) found then found ++ [key x] else found) ↔
        text ∈ found ∨ (keep x = true ∧ key x = text) := by
      have hx := hasMatch_plain (hplain x List.mem_cons_self) found
      split_ifs with h
      · rw [Bool.and_eq_true] at h
        rw [List.mem_append, List.mem_singleton, eq_comm, and_iff_right h.1]
      · refine (or_iff_left_of_imp ?_).symm
        rintro ⟨hkeep, rfl⟩
        rw [hkeep, Bool.true_and, Bool.not_eq_true', Bool.not_eq_false] at h
        exact hx.1 h
    rw [gather_cons, ih (fun y hy => hplain y (List.mem_cons_of_mem _ hy)), hstep, or_assoc, List.exists_mem_cons_iff]

theorem gather_nodup {l : List α} (hplain : ∀ x ∈ l, Plain (key x)) {found : List Text} (h : found.Nodup) :
    (gather keep key l found).Nodup := by
  induction l generalizing found with
  | nil => exact h
  | cons x l ih =>
    rw [gather_cons]
    refine ih (fun y hy => hplain y (List.mem_cons_of_mem _ hy)) ?_
    split_ifs with hx
    · rw [Bool.and_eq_true, Bool.not_eq_true', ← Bool.not_eq_true, hasMatch_plain (hplain x List.mem_cons_self)] at hx
      exact List.nodup_append.2 ⟨h, List.pairwise_singleton _ _, fun a ha b hb => by
        rintro rfl
        exact hx.2 (List.mem_singleton.1 hb ▸ ha)⟩
    · exact h

theorem gather_head (l : List α) (found : List Text) :
    (gather keep key l found).head? = found.head?.or ((l.find? keep).map key) := by
  induction l generalizing found with
  | nil => simp [gather]
  | cons x l ih =>
    rw [gather_cons, ih]
    cases found with
    | cons text found =>
      split_ifs <;> rfl
    | nil =>
      cases hx : keep x with
      | true => simp [hasMatch, hx]
      | false => simp [hx]

end Lists

section Choices
variable {s : Setting} {r : Requirement} {vs : List Version}

theorem chosen_candidates (s : Setting) : chosen s = (candidates s).find? fun version => !unsupported s version := by
  unfold chosen candidates
  cases hdefault : unsupported s s.pythonDefault with
  | true => rfl
  | false => rw [List.find?_cons_of_pos (by rw [hdefault]; rfl)]; rfl

theorem find_allowed (ho : Orderly s r vs) (ws : List Version) :
    (ws.map Version.text).find? (fun version => !unsupported s version) = (ws.find? r.allows).map Version.text := by
  rw [List.find?_map]
  have hallows : ((fun version => !unsupported s version) ∘ Version.text) = r.allows := by
    funext v
    rw [Function.comp_apply, unsupported_eq ho.requirement ho.legal, Bool.not_not]
  rw [hallows]

theorem chosen_eq (ho : Orderly s r vs) : chosen s = (vs.find? r.allows).map Version.text := by
  rw [chosen_candidates, ho.versions, find_allowed ho]

theorem validVersions_gather (ho : Orderly s r vs) : validVersions s = gather r.allows Version.text vs [] := by
  have hstep : ∀ valid (v : Version), (if !unsupported s v.text && !hasMatch v.text valid then valid ++ [v.text] else valid) =
      if r.allows v && !hasMatch v.text valid then valid ++ [v.text] else valid := fun valid v => by
    rw [unsupported_eq ho.requirement ho.legal, Bool.not_not]
  unfold validVersions gather
  rw [ho.versions, List.foldl_map]
  simp only [hstep]

theorem mem_validVersions (ho : Orderly s r vs) (version : Text) :
    version ∈ validVersions s ↔ ∃ v ∈ vs, r.allows v = true ∧ v.text = version := by
  rw [validVersions_gather ho, mem_gather fun v _ => text_plain_pattern v]
  simp

theorem mem_allPythonFlavors (ho : Orderly s r vs) (hsome : ∃ v ∈ vs, r.allows v = true) (flavor : Text) :
    flavor ∈ allPythonFlavors s ↔ ∃ v ∈ vs, r.allows v = true ∧ flavorOf v.text = flavor := by
  have hvalid : validVersions s ≠ [] := by
    obtain ⟨v, hv, hallows⟩ := hsome
    exact List.ne_nil_of_mem ((mem_validVersions ho _).2 ⟨v, hv, hallows, rfl⟩)
  rw [allPythonFlavors, if_pos hvalid, List.mem_map]
  simp only [mem_validVersions ho]
  constructor
  · rintro ⟨_, ⟨v, hv, hallows, rfl⟩, rfl⟩
    exact ⟨v, hv, hallows, rfl⟩
  · rintro ⟨v, hv, hallows, rfl⟩
    exact ⟨_, ⟨v, hv, hallows, rfl⟩, rfl⟩

theorem allows_congr (ho : Orderly s r vs) {v w : Version} (h : v.text = w.text) : r.allows v = r.allows w := by
  rw [← Bool.not_inj_iff, ← unsupported_eq ho.requirement ho.legal, ← unsupported_eq ho.requirement ho.legal, h]

theorem flavor_allowed (ho : Orderly s r vs) (hsome : ∃ v ∈ vs, r.allows v = true) {v : Version} (hv : v ∈ vs) :
    hasMatch (flavorOf v.text) (allPythonFlavors s) = r.allows v := by
  rw [Bool.eq_iff_iff, hasMatch_plain (flavor_plain_pattern v), mem_allPythonFlavors ho hsome]
  constructor
  · rintro ⟨w, -, hallows, heq⟩
    have htext : w.text = v.text := by rw [← ofFlavor_flavorOf w, heq, ofFlavor_flavorOf]
    rwa [← allows_congr ho htext]
  · exact fun hallows => ⟨v, hv, hallows, rfl⟩

def wanted (s : Setting) (vs : List Version) : List Version := if s.allFlavors then vs else vs.take 2

theorem defaults_eq (ho : Orderly s r vs) : ∃ v w, v ∈ vs ∧ w ∈ vs ∧ s.pythonDefault = v.text ∧
    s.python2Default = w.text ∧ vs.take 2 = [v, w] := by
  have htexts := ho.versions
  rcases vs with _ | ⟨v, _ | ⟨w, ws⟩⟩
  · simp [candidates] at htexts
  · simp [candidates] at htexts
  · simp only [candidates, List.map_cons, List.cons.injEq] at htexts
    exact ⟨v, w, by simp, by simp, htexts.1, htexts.2.1, rfl⟩

theorem generated_some (ho : Orderly s r vs) (hsome : ∃ v ∈ vs, r.allows v = true) (h : s.allFlavors = false) :
    generated s = gather r.allows (fun v => flavorOf v.text) (vs.take 2) [] := by
  obtain ⟨v, w, hv, hw, hdefault, hdefault2, htake⟩ := defaults_eq ho
  have hv' := flavor_allowed ho hsome hv
  have hw' := flavor_allowed ho hsome hw
  rw [generated, if_neg (by rw [h]; exact Bool.false_ne_true), hdefault, hdefault2, htake]
  simp only [List.foldl_cons, List.foldl_nil, hv', hw']
  rfl

theorem generated_all (ho : Orderly s r vs) (hsome : ∃ v ∈ vs, r.allows v = true) (h : s.allFlavors = true) :
    generated s = (gather r.allows Version.text vs []).map flavorOf := by
  have hvalid : validVersions s ≠ [] := by
    obtain ⟨v, hv, hallows⟩ := hsome
    exact List.ne_nil_of_mem ((mem_validVersions ho _).2 ⟨v, hv, hallows, rfl⟩)
  rw [generated, if_pos h, allPythonFlavors, if_pos hvalid, validVersions_gather ho]

theorem mem_generated (ho : Orderly s r vs) (hsome : ∃ v ∈ vs, r.allows v = true) (flavor : Text) :
    flavor ∈ generated s ↔ ∃ v ∈ wanted s vs, r.allows v = true ∧ flavorOf v.text = flavor := by
  cases h : s.allFlavors with
  | true =>
    rw [generated, if_pos h, mem_allPythonFlavors ho hsome, wanted, if_pos h]
  | false =>
    rw [generated_some ho hsome h, mem_gather fun v _ => flavor_plain_pattern v, wanted, if_neg (by rw [h]; exact Bool.false_ne_true)]
    exact or_iff_right List.not_mem_nil

theorem generated_nodup (ho : Orderly s r vs) (hsome : ∃ v ∈ vs, r.allows v = true) : (generated s).Nodup := by
  cases h : s.allFlavors with
  | true =>
    rw [generated_all ho hsome h]
    refine List.Nodup.map_on (fun a ha b hb heq => ?_) (gather_nodup (fun v _ => text_plain_pattern v) List.nodup_nil)
    rw [mem_gather fun v _ => text_plain_pattern v] at ha hb
    obtain ⟨v, -, -, rfl⟩ := ha.resolve_left List.not_mem_nil
    obtain ⟨w, -, -, rfl⟩ := hb.resolve_left List.not_mem_nil
    rw [← ofFlavor_flavorOf v, heq, ofFlavor_flavorOf]
  | false =>
    rw [generated_some ho hsome h]
    exact gather_nodup (fun v _ => flavor_plain_pattern v) List.nodup_nil

theorem generated_head (ho : Orderly s r vs) (hsome : ∃ v ∈ vs, r.allows v = true) :
    (generated s).head? = ((wanted s vs).find? r.allows).map fun v => flavorOf v.text := by
  cases h : s.allFlavors with
  | true =>
    rw [generated_all ho hsome h, List.head?_map, gather_head, wanted, if_pos h, List.head?_nil, Option.none_or, Option.map_map]
    rfl
  | false =>
    rw [generated_some ho hsome h, gather_head, wanted, if_neg (by rw [h]; exact Bool.false_ne_true)]
    rfl

theorem wanted_sublist (s : Setting) (vs : List Version) : (wanted s vs).Sublist vs := by
  unfold wanted
  split_ifs
  · exact List.Sublist.refl vs
  · exact List.take_sublist 2 vs

theorem find_wanted (s : Setting) (vs : List Version) (allows : Version → Bool) :
    (wanted s vs).find? allows = none ∨ (wanted s vs).find? allows = vs.find? allows := by
  unfold wanted
  split_ifs
  · exact .inr rfl
  · cases h : (vs.take 2).find? allows with
    | none => exact .inl rfl
    | some v =>
      have happend : (vs.take 2 ++ vs.drop 2).find? allows =
          ((vs.take 2).find? allows).or ((vs.drop 2).find? allows) := List.find?_append
      rw [List.take_append_drop, h] at happend
      exact .inr happend.symm

theorem flavors_eq (ho : Orderly s r vs) (flavor : Text) :
    (python { s with flavor := flavor }).flavors = if s.featureFlavors then generated s else [] := by
  change (if decide (s.flavors = []) && s.featureFlavors then generated s else s.flavors) = _
  rw [ho.unflavored, decide_eq_true rfl, Bool.true_and]

theorem flavor_known (ho : Orderly s r vs) {v : Version} (hv : v ∈ vs) (hallows : r.allows v = true) :
    python { s with flavor := flavorOf v.text } =
      { version := some v.text, flavors := if s.featureFlavors then generated s else [], flavor := flavorOf v.text,
        ignore := none } := by
  have hsome : ∃ w ∈ vs, r.allows w = true := ⟨v, hv, hallows⟩
  have hflavored := flavored_flavorOf (ho.known v hv)
  have hchosen : chosen { s with flavor := flavorOf v.text } ≠ none := by
    change chosen s ≠ none
    rw [chosen_eq ho, Ne, Option.map_eq_none_iff, List.find?_eq_none]
    exact fun h => h v hv hallows
  have hunknown : unknown { s with flavor := flavorOf v.text } = [] := unknown_eq ho.requirement ho.legal
  have hflavor : flavorOf v.text ≠ [] := List.cons_ne_nil _ _
  have hflavors := flavors_eq ho (flavorOf v.text)
  unfold python at hflavors ⊢
  simp only [hflavor, decide_false, Bool.and_false, Bool.false_eq_true, if_false, hflavored, if_true, ofFlavor_flavorOf,
    hchosen, hunknown, ne_eq, not_true_eq_false] at hflavors ⊢
  rw [hflavors]

theorem served_refused (requested : Text) {p : Python} (h : p.ignore ≠ none) : (served requested p).ignore ≠ none := by
  unfold served
  dsimp only
  split_ifs
  · exact h
  · exact Option.some_ne_none _
  · exact h
  · exact Option.some_ne_none _

theorem served_unknown (requested : Text) {p : Python} (hflavor : p.flavor ≠ []) (hplain : Plain p.flavor)
    (h : p.flavor ∉ p.flavors) : (served requested p).ignore ≠ none := by
  rw [← hasMatch_plain hplain] at h
  unfold served
  dsimp only
  rw [if_neg hflavor, if_neg h]
  split_ifs
  · exact Option.some_ne_none _
  · exact Option.some_ne_none _

theorem excluding_head {flavor : Text} {flavors : List Text} (hplain : Plain flavor) (h : (flavor :: flavors).Nodup) :
    flavor :: excluding flavor (flavor :: flavors) = flavor :: flavors := by
  have hself : strMatch flavor flavor = true := (strMatch_plain hplain _).2 rfl
  have hrest : excluding flavor flavors = flavors := by
    refine List.filter_eq_self.2 fun other hother => ?_
    rw [Bool.not_eq_true', ← Bool.not_eq_true, strMatch_plain hplain]
    rintro rfl
    exact (List.nodup_cons.1 h).1 hother
  unfold excluding at hrest ⊢
  rw [List.filter_cons_of_neg (by rw [hself]; exact Bool.false_ne_true), hrest]

/-- Neither a flavor that is there nor the first one, where none is asked for, changes anything. -/
theorem served_listed {requested : Text} {p : Python} (hplain : ∀ flavor ∈ p.flavors, Plain flavor) (hnodup : p.flavors.Nodup)
    (hne : [] ∉ p.flavors) (h : p.flavor = p.flavors.headD [] ∨ (requested ≠ [] ∧ p.flavor ∈ p.flavors)) :
    served requested p = p := by
  obtain ⟨version, flavors, flavor, ignore⟩ := p
  dsimp only at hplain hnodup hne h
  cases flavors with
  | nil =>
    rcases h with rfl | ⟨-, hmem⟩
    · simp [served]
    · cases hmem
  | cons first flavors =>
    rw [List.headD_cons] at h
    have hmem : flavor ∈ first :: flavors := by
      rcases h with rfl | ⟨-, hmem⟩
      · exact List.mem_cons_self
      · exact hmem
    have hflavor : flavor ≠ [] := fun heq => hne (heq ▸ hmem)
    have hmatch := (hasMatch_plain (hplain _ hmem) _).2 hmem
    have hsame : requested = [] → flavor :: excluding flavor (first :: flavors) = first :: flavors := by
      intro hrequested
      rcases h with rfl | ⟨hne, -⟩
      · exact excluding_head (hplain _ hmem) hnodup
      · exact absurd hrequested hne
    by_cases hrequested : requested = []
    · simp [served, hflavor, hmatch, hsame hrequested, hrequested]
    · simp [served, hflavor, hmatch, hrequested]

theorem build_refused (ho : Orderly s r vs) (h : vs.find? r.allows = none) (flavor : Text) :
    (build { s with flavor := flavor }).ignore ≠ none := by
  have hchosen : chosen { s with flavor := flavor } = none := by
    change chosen s = none
    rw [chosen_eq ho, h]
    rfl
  refine served_refused _ ?_
  unfold python
  simp only [hchosen, if_true]
  exact Option.some_ne_none _

theorem python_plain (ho : Orderly s r vs) (hflavor : s.flavor = []) {v : Version} (h : vs.find? r.allows = some v) :
    (python s).version = some v.text ∧ (python s).ignore = none ∧
      (python s).flavor = (if s.featureFlavors then generated s else []).headD [] := by
  have hv := List.mem_of_find?_eq_some h
  have hallows := List.find?_some h
  have hsome : ∃ w ∈ vs, r.allows w = true := ⟨v, hv, hallows⟩
  have hchosen : chosen s = some v.text := by rw [chosen_eq ho, h]; rfl
  have hunknown := unknown_eq ho.requirement ho.legal
  have hhead := generated_head ho hsome
  unfold python
  simp only [hflavor, ho.unflavored, decide_true, Bool.true_and, Bool.and_true, hchosen, hunknown, Option.some_ne_none,
    ne_eq, not_true_eq_false, if_false]
  cases hfeature : s.featureFlavors with
  | false => exact ⟨rfl, trivial, rfl⟩
  | true =>
    cases hgenerated : generated s with
    | nil => exact ⟨rfl, trivial, rfl⟩
    | cons flavor flavors =>
      rw [hgenerated] at hhead
      rcases find_wanted s vs r.allows with hnone | hsame
      · rw [hnone] at hhead
        cases hhead
      · rw [hsame, h] at hhead
        cases hhead
        simp [flavored_flavorOf (ho.known v hv), ofFlavor_flavorOf]

theorem generated_errors (ho : Orderly s r vs) (hsome : ∃ v ∈ vs, r.allows v = true) : flavorErrors (generated s) = [] := by
  have hnot : hasMatch "all".toList (generated s) ≠ true := by
    rw [Ne, hasMatch_plain (by decide), mem_generated ho hsome]
    rintro ⟨v, -, -, heq⟩
    rw [flavorOf_text] at heq
    exact absurd (List.cons.inj heq).1 (by decide)
  have hgood : (generated s).filter (fun flavor => flavor.any isBad) = [] := by
    rw [List.filter_eq_nil_iff]
    intro flavor hflavor
    obtain ⟨v, -, -, rfl⟩ := (mem_generated ho hsome flavor).1 hflavor
    rw [Bool.not_eq_true, List.any_eq_false]
    intro c hc
    rw [flavorOf_text, List.mem_cons, List.mem_cons] at hc
    rcases hc with rfl | rfl | hc
    · decide
    · decide
    rw [text_erase, List.mem_cons] at hc
    have hdigit : ∀ d : Char, d.isDigit = true → ¬ isBad d = true := fun d hd => by simp [isBad, hd]
    rcases hc with rfl | hc
    · exact hdigit _ (isOne_digit v.first)
    rcases List.mem_append.1 hc with hc | hc
    · exact hdigit c (minor_digits v c hc)
    · split_ifs at hc
      · rw [List.mem_singleton.1 hc]
        decide
      · cases hc
  unfold flavorErrors
  rw [if_neg hnot]
  simp only [hgood, ne_eq, not_true_eq_false, if_false, List.append_nil]

theorem python_flavor {flavor : Text} (h : flavor ≠ []) : (python { s with flavor := flavor }).flavor = flavor := by
  unfold python
  simp [h]

theorem generated_plain (ho : Orderly s r vs) (hsome : ∃ v ∈ vs, r.allows v = true) :
    (∀ flavor ∈ generated s, Plain flavor) ∧ [] ∉ generated s := by
  constructor
  · intro flavor hflavor
    obtain ⟨v, -, -, rfl⟩ := (mem_generated ho hsome flavor).1 hflavor
    exact flavor_plain_pattern v
  · intro hnil
    obtain ⟨v, -, -, heq⟩ := (mem_generated ho hsome []).1 hnil
    cases heq

theorem build_plain (ho : Orderly s r vs) (hflavor : s.flavor = []) {v : Version} (h : vs.find? r.allows = some v) :
    build s = python s := by
  have hsome : ∃ w ∈ vs, r.allows w = true := ⟨v, List.mem_of_find?_eq_some h, List.find?_some h⟩
  have hflavors : (python s).flavors = if s.featureFlavors then generated s else [] := flavors_eq ho s.flavor
  obtain ⟨-, -, hfirst⟩ := python_plain ho hflavor h
  rw [← hflavors] at hfirst
  have hgenerated : ∀ flavor ∈ (python s).flavors, flavor ∈ generated s := by
    intro flavor hmem
    rw [hflavors] at hmem
    split_ifs at hmem
    · exact hmem
    · cases hmem
  obtain ⟨hplain, hne⟩ := generated_plain ho hsome
  refine served_listed (fun flavor hmem => hplain flavor (hgenerated flavor hmem)) ?_ (fun hmem => hne (hgenerated _ hmem)) (.inl hfirst)
  rw [hflavors]
  split_ifs
  · exact generated_nodup ho hsome
  · exact List.nodup_nil

theorem build_flavor (ho : Orderly s r vs) (hfeature : s.featureFlavors = true) {v : Version} (hv : v ∈ wanted s vs)
    (hallows : r.allows v = true) : build { s with flavor := flavorOf v.text } =
      { version := some v.text, flavors := generated s, flavor := flavorOf v.text, ignore := none } := by
  have hmem := (wanted_sublist s vs).subset hv
  have hsome : ∃ w ∈ vs, r.allows w = true := ⟨v, hmem, hallows⟩
  obtain ⟨hplain, hne⟩ := generated_plain ho hsome
  have hflavor : flavorOf v.text ∈ generated s := (mem_generated ho hsome _).2 ⟨v, hv, hallows, rfl⟩
  unfold build
  rw [flavor_known ho hmem hallows, if_pos hfeature]
  exact served_listed hplain (generated_nodup ho hsome) hne (.inr ⟨List.cons_ne_nil _ _, hflavor⟩)

/-- Without a flavor a port gets the first of the default versions and of all versions that it allows, whether it generates
flavors or not; where it allows none, every build is refused, whatever flavor it is for. -/
theorem first_allowed (ho : Orderly s r vs) (hflavor : s.flavor = []) :
    (∀ v, vs.find? r.allows = some v → (build s).version = some v.text ∧ (build s).ignore = none) ∧
    (vs.find? r.allows = none → ∀ flavor, (build { s with flavor := flavor }).ignore ≠ none) := by
  refine ⟨fun v hv => ?_, build_refused ho⟩
  obtain ⟨hversion, hignore, -⟩ := python_plain ho hflavor hv
  rw [build_plain ho hflavor hv]
  exact ⟨hversion, hignore⟩

/-- The flavors that are generated have the names they may have, each once: one for each version that is allowed and wanted.
Such a flavor gives its version and changes nothing else, any other one is refused. -/
theorem flavors_served (ho : Orderly s r vs) (hfeature : s.featureFlavors = true) (hsome : ∃ v ∈ vs, r.allows v = true) :
    (generated s).Nodup ∧ flavorErrors (generated s) = [] ∧
    (∀ flavor, flavor ∈ generated s ↔ ∃ v ∈ wanted s vs, r.allows v = true ∧ flavorOf v.text = flavor) ∧
    (∀ v ∈ wanted s vs, r.allows v = true → build { s with flavor := flavorOf v.text } =
      { version := some v.text, flavors := generated s, flavor := flavorOf v.text, ignore := none }) ∧
    ∀ flavor, flavor ≠ [] → Plain flavor → flavor ∉ generated s → (build { s with flavor := flavor }).ignore ≠ none := by
  refine ⟨generated_nodup ho hsome, generated_errors ho hsome, mem_generated ho hsome, ?_, ?_⟩
  · exact fun v hv hallows => build_flavor ho hfeature hv hallows
  · intro flavor hne hplain hnot
    have hflavors := flavors_eq ho flavor
    rw [if_pos hfeature] at hflavors
    have hflavor := python_flavor (s := s) hne
    refine served_unknown _ ?_ ?_ ?_
    · rwa [hflavor]
    · rwa [hflavor]
    · rwa [hflavor, hflavors]

end Choices

section Sample

def python27 : Version := ⟨'2', ['7'], false, by decide, .inl ⟨'7', rfl, by decide, rfl⟩⟩

def python31 (c : Char) (free : Bool) (h : c.isDigit = true) : Version :=
  ⟨'3', ['1', c], free, by decide, .inr ⟨'1', c, rfl, by decide, h⟩⟩

def sampleVersions : List Version :=
  [python31 '2' false (by decide), python27, python31 '1' false (by decide), python31 '2' false (by decide),
    python31 '3' false (by decide), python31 '3' true (by decide), python31 '4' false (by decide),
    python31 '5' false (by decide), python27]

def sampleRequirement : Requirement := .atLeast (python31 '3' false (by decide))

def sample : Setting where
  pythonDefault := "3.12".toList
  python2Default := "2.7".toList
  versions := ["3.11".toList, "3.12".toList, "3.13".toList, "3.13t".toList, "3.14".toList, "3.15".toList, "2.7".toList]
  args := ["3.13+".toList, "run".toList]
  featureFlavors := true
  allFlavors := true
  flavors := []
  flavor := []

theorem python31_known {c : Char} {free : Bool} (h : c.isDigit = true) (hfree : free = true → '3' ≤ c ∧ c ≤ '9') :
    (python31 c free h).Known := ⟨.inr rfl, fun hthreads => ⟨rfl, c, rfl, hfree hthreads⟩⟩

theorem sample_orderly : Orderly sample sampleRequirement sampleVersions where
  requirement := by decide
  legal := rfl
  versions := by decide
  known := by
    have hplain : ∀ c (h : c.isDigit = true), (python31 c false h).Known := fun c h => python31_known h nofun
    have hold : python27.Known := ⟨.inl rfl, nofun⟩
    intro v hv
    simp only [sampleVersions, List.mem_cons, List.not_mem_nil, or_false] at hv
    rcases hv with rfl | rfl | rfl | rfl | rfl | rfl | rfl | rfl | rfl
    · exact hplain _ _
    · exact hold
    · exact hplain _ _
    · exact hplain _ _
    · exact hplain _ _
    · exact python31_known _ fun _ => by decide
    · exact hplain _ _
    · exact hplain _ _
    · exact hold
  unflavored := rfl

theorem sample_first : (build sample).version = some "3.13".toList ∧ (build sample).ignore = none :=
  (first_allowed sample_orderly rfl).1 (python31 '3' false (by decide)) (by rfl)

theorem sample_flavors : (generated sample).Nodup ∧ flavorErrors (generated sample) = [] ∧
    (∀ flavor, flavor ∈ generated sample ↔ ∃ v ∈ wanted sample sampleVersions, sampleRequirement.allows v = true ∧ flavorOf v.text = flavor) ∧
    (∀ v ∈ wanted sample sampleVersions, sampleRequirement.allows v = true → build { sample with flavor := flavorOf v.text } =
      { version := some v.text, flavors := generated sample, flavor := flavorOf v.text, ignore := none }) ∧
    ∀ flavor, flavor ≠ [] → Plain flavor → flavor ∉ generated sample → (build { sample with flavor := flavor }).ignore ≠ none :=
  flavors_served sample_orderly rfl ⟨python31 '3' false (by decide), by simp [sampleVersions], by decide⟩

end Sample

end Mports.PythonVersions
