import Mathlib.Data.List.Basic
import Mathlib.Data.List.Infix
import Mports.PerlText

set_option autoImplicit false

namespace Mports.PortRemoval
open PerlText (isSpace)

abbrev Text := List Char
abbrev Line := List Char

/-- The characters with which `grep -E` does more than look for them, but for the dot. -/
def operators : List Char := "*?[](){}|^$\\+".toList

/-- The characters of a pattern, each with whether there is a `+` behind it; none where there are
other operators, or a `+` with nothing to repeat. -/
def items : Text → Option (List (Char × Bool))
  | [] => some []
  | c :: '+' :: rest => if c ∈ operators then none else (items rest).map ((c, true) :: ·)
  | c :: rest => if c ∈ operators then none else (items rest).map ((c, false) :: ·)

def like (c x : Char) : Bool := c = '.' || c = x

def repeats (p : Char → Bool) (next : Line → Bool) : Line → Bool
  | [] => false
  | x :: line => p x && (next line || repeats p next line)

def startsLike : List (Char × Bool) → Line → Bool
  | [], _ => true
  | (_, false) :: _, [] => false
  | (c, false) :: items, x :: line => like c x && startsLike items line
  | (c, true) :: items, line => repeats (like c) (startsLike items) line

/-- What `make -V PKGNAME` says of a port, the lines of INDEX, and the files in which `git grep`
looks, by their paths. `other` is what `grep -E` makes of patterns with other operators. -/
structure Ports where
  portsdir : Text
  pkgname : Text → Text
  index : List Line
  makefiles : List (Text × List Line)
  other : Text → Line → Bool

section
variable (p : Ports)

/-- `grep -E "${pattern}"`. -/
def Ports.grep (pattern : Text) (line : Line) : Bool :=
  match items pattern with
  | some items => line.tails.any (startsLike items)
  | none => p.other pattern line

/-- `grep -E "^(${alternatives})"`. -/
def Ports.grepStart (alternatives : Text) (line : Line) : Bool :=
  if (alternatives.splitOn '|').all fun text => (items text).isSome then
    (alternatives.splitOn '|').any fun text => (items text).elim false (startsLike · line)
  else p.other ("^(".toList ++ alternatives ++ [')']) line

/-- `${torm%/}`, with sed. -/
def stripSlash (torm : Text) : Text := if torm.getLast? = some '/' then torm.dropLast else torm

/-- `"${all:+${all}|}${text}"`. -/
def join (all text : Text) : Text := (if all = [] then [] else all ++ ['|']) ++ text

def Ports.rmpkgs (alltorm : List Text) : Text :=
  alltorm.foldl (fun all torm => join all (p.pkgname (stripSlash torm))) []

def Ports.rmcatports (alltorm : List Text) : Text :=
  alltorm.foldl (fun all torm => join all (p.portsdir ++ '/' :: (stripSlash torm ++ ['/']))) []

def basename (path : Text) : Text := ((path.reverse.dropWhile (· = '/')).takeWhile (· ≠ '/')).reverse

def portdirGrep (catport : Text) : Text := "^[^#].*/".toList ++ basename catport ++ "([[:space:]]|@|/|$)".toList

def quoted : Text := "${portdir_grep}".toList

/-- `git grep`, for which the pattern stands for itself, prints the paths before the lines. -/
def Ports.gitGrep : List Line :=
  p.makefiles.flatMap fun file => (file.2.filter fun line => decide (quoted <:+: line)).map (file.1 ++ ':' :: ·)

/-- The exit status, and what is printed. A variable with nothing but newlines in its value is empty. -/
def checkDepCore (catport : Text) (alltorm : List Text) : ℕ × List Line :=
  let deps := (p.index.filter (p.grep (p.pkgname catport))).filter fun line => !p.grepStart (p.rmpkgs alltorm) line
  let r := p.gitGrep.filter fun line => !p.grepStart (p.rmcatports alltorm) line
  let depended := deps.any (· ≠ [])
  let mentioned := r.any (· ≠ [])
  (if depended || mentioned then 1 else 0,
    (if depended then ("==> ".toList ++ catport ++ ": some port(s) depend on ".toList ++ p.pkgname catport ++ [':']) :: deps
      else []) ++
    (if mentioned then (if depended then [[]] else []) ++
      ("==> ".toList ++ catport ++ ": some Makefiles mention ".toList ++ portdirGrep catport ++ [':']) :: r
    else []))

def Mentions (name : Text) (line : Line) : Prop :=
  ∃ before after, line = before ++ '/' :: (name ++ after) ∧ ∀ c ∈ after.head?, isSpace c ∨ c = '@' ∨ c = '/'

/-- A line of INDEX with a text like the package name, which does not begin like that of a removed port. -/
def Shown (catport : Text) (alltorm : List Text) : Prop :=
  ∃ line ∈ p.index, line ≠ [] ∧ p.grep (p.pkgname catport) line ∧ ¬ p.grepStart (p.rmpkgs alltorm) line

def Quoted (alltorm : List Text) : Prop :=
  ∃ file ∈ p.makefiles, ∃ line ∈ file.2, quoted <:+: line ∧
    ¬ p.grepStart (p.rmcatports alltorm) (file.1 ++ ':' :: line)

end

section Searches
variable {p : Ports} {catport : Text} {alltorm : List Text}

theorem status_zero_iff : (checkDepCore p catport alltorm).1 = 0 ↔ ¬ (Shown p catport alltorm ∨ Quoted p alltorm) := by
  have hdeps : ((p.index.filter (p.grep (p.pkgname catport))).filter fun line =>
      !p.grepStart (p.rmpkgs alltorm) line).any (fun line => line ≠ []) ↔ Shown p catport alltorm := by
    simp only [List.any_eq_true, List.mem_filter, Bool.not_eq_true', decide_eq_true_eq, Shown, Bool.not_eq_true]
    constructor
    · rintro ⟨line, ⟨⟨hline, hgrep⟩, hstart⟩, hne⟩
      exact ⟨line, hline, hne, hgrep, hstart⟩
    · rintro ⟨line, hline, hne, hgrep, hstart⟩
      exact ⟨line, ⟨⟨hline, hgrep⟩, hstart⟩, hne⟩
  have hmentions : (p.gitGrep.filter fun line => !p.grepStart (p.rmcatports alltorm) line).any (fun line => line ≠ []) ↔
      Quoted p alltorm := by
    simp only [List.any_eq_true, List.mem_filter, Bool.not_eq_true', decide_eq_true_eq, Ports.gitGrep, List.mem_flatMap,
      List.mem_map, Quoted, Bool.not_eq_true]
    constructor
    · rintro ⟨_, ⟨⟨file, hfile, line, ⟨hline, hquoted⟩, rfl⟩, hstart⟩, -⟩
      exact ⟨file, hfile, line, hline, hquoted, hstart⟩
    · rintro ⟨file, hfile, line, hline, hquoted, hstart⟩
      exact ⟨_, ⟨⟨file, hfile, line, ⟨hline, hquoted⟩, rfl⟩, hstart⟩, List.append_ne_nil_of_right_ne_nil _ nofun⟩
  rw [← hdeps, ← hmentions, ← Bool.or_eq_true, checkDepCore]
  dsimp only
  split_ifs with hshown
  · exact iff_of_false not_false (not_not_intro hshown)
  · exact iff_of_true rfl hshown

end Searches

section Names
variable {p : Ports} {catport name : Text} {alltorm : List Text} {line : Line}

theorem makefiles_ignored (h : ¬ Quoted p alltorm) :
    (checkDepCore p catport alltorm).1 = (checkDepCore { p with makefiles := [] } catport alltorm).1 := by
  have hshown : Shown { p with makefiles := [] } catport alltorm ↔ Shown p catport alltorm := Iff.rfl
  have hquoted : ¬ Quoted { p with makefiles := [] } alltorm := by
    rintro ⟨file, hfile, -⟩
    cases hfile
  have hzero : (checkDepCore p catport alltorm).1 = 0 ↔
      (checkDepCore { p with makefiles := [] } catport alltorm).1 = 0 := by
    rw [status_zero_iff, status_zero_iff, or_iff_left h, or_iff_left hquoted, hshown]
  have hbool : ∀ q : Ports, (checkDepCore q catport alltorm).1 = 0 ∨ (checkDepCore q catport alltorm).1 = 1 := by
    intro q
    rw [checkDepCore]
    dsimp only
    split_ifs
    · exact .inr rfl
    · exact .inl rfl
  obtain hp | hp := hbool p <;> obtain hq | hq := hbool { p with makefiles := [] }
  · rw [hp, hq]
  · exact absurd (hzero.1 hp) (by rw [hq]; decide)
  · exact absurd (hzero.2 hq) (by rw [hp]; decide)
  · rw [hp, hq]

/-- The package of one port has a `+` in its name, on which another one depends. -/
def toolkits : Ports where
  portsdir := "/usr/mports".toList
  pkgname _ := "gtk+-1.2".toList
  index := ["gtk+-1.2|/usr/mports/x11-toolkits/gtk12||||||".toList,
    "gimp-1.0|/usr/mports/graphics/gimp1|||||||gtk+-1.2".toList]
  makefiles := [("graphics/gimp1/Makefile".toList, ["LIB_DEPENDS=libgtk.so:x11-toolkits/gtk12".toList])]
  other _ _ := false

end Names

end Mports.PortRemoval
