import Mports.LineScans
import Mports.ShellText

set_option autoImplicit false

namespace Mports.CargoPatches
open LineScans ShellText

abbrev Line := List Char

/-- `[ \t]`. -/
def isTab (c : Char) : Bool := c = ' ' || c = '\t'

/-- `/git[ \t]*=/`. -/
def hasGit (line : Line) : Bool :=
  line.tails.any fun rest => "git".toList.isPrefixOf rest && ((rest.drop 3).dropWhile isTab).head? = some '='

/-- `/^[ \t]*#/`. -/
def isComment (line : Line) : Bool := (line.dropWhile isTab).head? = some '#'

/-- `/^[ \t]*\[/`. -/
def tableHeader (line : Line) : Bool := (line.dropWhile isTab).head? = some '['

/-- `/^[ \t]*\[[ \t]*patch\.crates-io[ \t]*\][ \t]*$/`. -/
def patchHeader (line : Line) : Bool :=
  let name := ((line.dropWhile isTab).drop 1).dropWhile isTab
  let rest := (name.drop "patch.crates-io".length).dropWhile isTab
  tableHeader line && "patch.crates-io".toList.isPrefixOf name && rest.head? = some ']' && (rest.drop 1).all isTab

def gitKey (line : Line) : Bool := hasGit line && !isComment line

def commented (line : Line) : Line := "# ".toList ++ line

/-- A line that is read, with the flag `in_patch_crates_io`: what is printed, and the
crate that is replaced. -/
def step (inPatch : Bool) (line : Line) : Bool × List (Line × Option (List Char)) :=
  if inPatch then
    if gitKey line then (inPatch, [(commented line, some (field 1 line))]) else (inPatch, [(line, none)])
  else if patchHeader line then (true, [(line, none)])
  else if tableHeader line then (false, [(line, none)])
  else (inPatch, [(line, none)])

/-- The output, which is a copy of the input until it is written to, and `replaced_crates`. -/
def findReplacedCrates (input : List Line) : List Line × List (List Char) :=
  let items := (scan step false input).2
  (items.map (·.1), items.filterMap (·.2))

def inTable (before : List Line) (line : Line) : Bool :=
  !tableHeader line && (before.reverse.find? tableHeader).any patchHeader

/-- A line of the input, with those before it. -/
def At (input before : List Line) (line : Line) : Prop := ∃ after, input = before ++ line :: after

structure OnlyReplaced (input output : List Line) (crates : List (List Char)) : Prop where
  length : output.length = input.length
  lines : ∀ before line, At input before line →
    output[before.length]? = some (if inTable before line && gitKey line then commented line else line)
  crates : ∀ crate, crate ∈ crates ↔
    ∃ before line, At input before line ∧ inTable before line ∧ gitKey line ∧ crate = field 1 line

def emit (inPatch : Bool) (line : Line) : Line × Option (List Char) :=
  if inPatch && gitKey line then (commented line, some (field 1 line)) else (line, none)

theorem step_eq (inPatch : Bool) (line : Line) :
    step inPatch line = (inPatch || patchHeader line, [emit inPatch line]) := by
  unfold step emit
  cases inPatch
  · split_ifs <;> simp_all
  · split_ifs <;> simp_all

theorem scan_flag (inPatch : Bool) (lines : List Line) :
    (scan step inPatch lines).1 = (inPatch || lines.any patchHeader) := by
  induction lines generalizing inPatch with
  | nil => simp
  | cons line lines ih => rw [scan_cons, step_eq, ih, List.any_cons, Bool.or_assoc]

theorem items_get {input before : List Line} {line : Line} (h : At input before line) :
    (scan step false input).2[before.length]? = some (emit (before.any patchHeader) line) := by
  obtain ⟨after, rfl⟩ := h
  rw [scan_one_get step emit _ step_eq, scan_flag, Bool.false_or]

theorem items_length (input : List Line) : (scan step false input).2.length = input.length :=
  scan_one_length step emit _ step_eq false input

theorem at_of_lt {input : List Line} {i : ℕ} (h : i < input.length) : At input (input.take i) input[i] :=
  ⟨input.drop (i + 1), by rw [← List.drop_eq_getElem_cons h, List.take_append_drop]⟩

theorem mem_crates (input : List Line) (crate : List Char) : crate ∈ (findReplacedCrates input).2 ↔
    ∃ before line, At input before line ∧ before.any patchHeader ∧ gitKey line ∧ crate = field 1 line := by
  rw [findReplacedCrates, List.mem_filterMap]
  constructor
  · rintro ⟨item, hitem, hcrate⟩
    obtain ⟨i, hi, rfl⟩ := List.getElem_of_mem hitem
    have hlt : i < input.length := by rwa [items_length] at hi
    have hget := items_get (at_of_lt hlt)
    rw [List.length_take_of_le hlt.le, List.getElem?_eq_getElem hi, Option.some.injEq] at hget
    rw [hget, emit] at hcrate
    split_ifs at hcrate with hmark
    rw [Bool.and_eq_true] at hmark
    exact ⟨_, _, at_of_lt hlt, hmark.1, hmark.2, (Option.some.inj hcrate).symm⟩
  · rintro ⟨before, line, hat, hflag, hgit, rfl⟩
    refine ⟨emit (before.any patchHeader) line, List.mem_of_getElem? (items_get hat), ?_⟩
    simp only [emit, hflag, hgit, Bool.and_self, if_true]

theorem commented_ne (line : Line) : commented line ≠ line := by
  intro h
  have hlength := congrArg List.length h
  simp [commented] at hlength
  omega

theorem any_of_inTable {before : List Line} {line : Line} (h : inTable before line) : before.any patchHeader := by
  rw [inTable, Bool.and_eq_true, Option.any_eq_true] at h
  obtain ⟨-, header, hfind, hpatch⟩ := h
  exact List.any_eq_true.2 ⟨header, List.mem_reverse.1 (List.mem_of_find?_eq_some hfind), hpatch⟩

/-- The output is right where no line with a key `git` follows the tables. -/
theorem onlyReplaced_iff (input : List Line) :
    OnlyReplaced input (findReplacedCrates input).1 (findReplacedCrates input).2 ↔
      ∀ before line, At input before line → gitKey line → before.any patchHeader → inTable before line := by
  have houtput : ∀ {before line}, At input before line →
      (findReplacedCrates input).1[before.length]? = some (emit (before.any patchHeader) line).1 := by
    intro before line hat
    rw [findReplacedCrates, List.getElem?_map, items_get hat, Option.map_some]
  constructor
  · intro h before line hat hgit hflag
    have hline := (houtput hat).symm.trans (h.lines before line hat)
    by_contra htable
    simp only [emit, hflag, hgit, htable, Bool.and_self, Bool.and_true, if_true, if_false,
      Option.some.injEq] at hline
    exact commented_ne line hline
  · intro h
    refine ⟨?_, fun before line hat => ?_, fun crate => ?_⟩
    · rw [findReplacedCrates, List.length_map, items_length]
    · rw [houtput hat, emit]
      have hsame : (before.any patchHeader && gitKey line) = (inTable before line && gitKey line) := by
        cases hgit : gitKey line with
        | false => simp
        | true =>
          rw [Bool.and_true, Bool.and_true, Bool.eq_iff_iff]
          exact ⟨h before line hat hgit, any_of_inTable⟩
      rw [hsame, apply_ite Prod.fst]
    · rw [mem_crates]
      constructor
      · rintro ⟨before, line, hat, hflag, hgit, rfl⟩
        exact ⟨before, line, hat, h before line hat hgit hflag, hgit, rfl⟩
      · rintro ⟨before, line, hat, htable, hgit, rfl⟩
        exact ⟨before, line, hat, any_of_inTable htable, hgit, rfl⟩

def dependenciesAfter : List Line :=
  ["[patch.crates-io]".toList, "a = \x7b git = \"x\" \x7d".toList, "[dependencies]".toList, "b = \x7b git = \"y\" \x7d".toList]

theorem dependencies_commented :
    ¬ OnlyReplaced dependenciesAfter (findReplacedCrates dependenciesAfter).1
      (findReplacedCrates dependenciesAfter).2 := by
  intro h
  have hline := h.lines (dependenciesAfter.take 3) "b = \x7b git = \"y\" \x7d".toList ⟨[], rfl⟩
  exact absurd hline (by decide)

end Mports.CargoPatches
