import Mports.Distinfo
import Mports.LineScans
import Mports.MakeWords

set_option autoImplicit false

namespace Mports.CratesUpdate
open LineScans Distinfo MakeWords

abbrev Line := List Char

/-- The lines that `read` succeeds on: those that end with a newline. -/
def readLines (text : List Char) : List Line := (text.splitOn '\n').dropLast

/-- `echo "$line"`: the lines it prints. `-n` and `-e` are options. -/
def echo (line : Line) : List Line :=
  if line = "-n".toList then [] else if line = "-e".toList then [[]] else [line]

/-- `grep "^CARGO_CRATES="`. -/
def isCrates (line : Line) : Bool := "CARGO_CRATES=".toList.isPrefixOf line

structure State where
  incrates : Bool
  stdin : List Line

def step (s : State) (line : Line) : State × List Line :=
  let incrates := isCrates line || s.incrates
  if incrates then
    if line = [] then (⟨false, []⟩, s.stdin.flatMap echo ++ echo line) else ({ s with incrates }, [])
  else ({ s with incrates }, echo line)

def updateCrates (makefile stdin : List Char) : List Char :=
  ofLines (scan step ⟨false, readLines stdin⟩ (readLines makefile)).2

/-- A Makefile with one assignment to `CARGO_CRATES`. -/
structure Makefile where
  text : List Char
  before : List Line
  block : List Line
  after : List Line
  lines : linesOf text = before ++ (block ++ after)
  starts : block.head?.any isCrates
  continued : ∀ line ∈ block.dropLast, continues line
  ends : after ≠ [] → ∀ line ∈ block.getLast?, ¬ continues line
  alone : ∀ line ∈ before ++ after, isCrates line = false

def Replaced (m : Makefile) (stdin : List Char) : Prop :=
  linesOf (updateCrates m.text stdin) = m.before ++ (linesOf stdin ++ m.after)

/-- `echo` takes the line for an option. -/
def IsOption (line : Line) : Prop := line = "-n".toList ∨ line = "-e".toList

def Whole (text : List Char) : Prop := readLines text = linesOf text

/-- Either an empty line follows the assignment, or there is nothing to be written. -/
structure Followed (m : Makefile) (stdin : List Char) : Prop where
  options : ∀ line ∈ m.before ++ (linesOf stdin ++ m.after), ¬ IsOption line
  block : [] ∉ m.block
  after : (linesOf stdin = [] ∧ m.after = []) ∨ (Whole m.text ∧ Whole stdin ∧ m.after.head? = some [])

section Lines

theorem linesOf_cases (text : List Char) :
    Whole text ∨ ∃ last, last ≠ [] ∧ linesOf text = readLines text ++ [last] := by
  have hne := List.splitOn_ne_nil '\n' text
  unfold Whole linesOf readLines
  dsimp only
  split_ifs with h
  · exact .inl rfl
  · refine .inr ⟨(text.splitOn '\n').getLast hne, fun hlast => h ?_, (List.dropLast_append_getLast hne).symm⟩
    rw [List.getLast?_eq_some_getLast hne, hlast]

theorem readLines_plain {text line : List Char} (h : line ∈ readLines text) : '\n' ∉ line := fun hmem =>
  absurd (ShellText.part_plain (p := (· == '\n')) (List.dropLast_subset _ h) '\n' hmem) (by decide)

theorem echo_plain {lines : List Line} (h : ∀ line ∈ lines, ¬ IsOption line) : lines.flatMap echo = lines := by
  induction lines with
  | nil => rfl
  | cons line lines ih =>
    have hline := h line List.mem_cons_self
    rw [List.flatMap_cons, ih fun l hl => h l (List.mem_cons_of_mem _ hl), echo,
      if_neg fun heq => hline (.inl heq), if_neg fun heq => hline (.inr heq), List.singleton_append]

theorem not_option_of_echo {line out : Line} (h : out ∈ echo line) : ¬ IsOption out := by
  unfold echo at h
  split_ifs at h with hn he
  · cases h
  · rw [List.mem_singleton.1 h]
    rintro (h | h) <;> cases h
  · rw [List.mem_singleton.1 h]
    rintro (h | h)
    · exact hn h
    · exact he h

theorem echo_subset_plain {line out : Line} (h : out ∈ echo line) (hplain : '\n' ∉ line) : '\n' ∉ out := by
  unfold echo at h
  split_ifs at h
  · cases h
  · simp_all
  · simp_all

end Lines

section Loop
variable {stdin : List Line}

theorem scan_outside {lines : List Line} (h : ∀ line ∈ lines, isCrates line = false) :
    scan step ⟨false, stdin⟩ lines = (⟨false, stdin⟩, lines.flatMap echo) :=
  scan_steady step echo fun line hline => by simp [step, h line hline]

theorem scan_inside {lines : List Line} (h : ∀ line ∈ lines, line ≠ []) :
    scan step ⟨true, stdin⟩ lines = (⟨true, stdin⟩, []) := by
  have hsteady : ∀ line ∈ lines, step ⟨true, stdin⟩ line = (⟨true, stdin⟩, []) := by
    intro line hline
    simp [step, h line hline]
  rw [scan_steady step (fun _ => []) hsteady, List.flatMap_eq_nil_iff.2 fun _ _ => rfl]

def fromEmpty (stdin : List Line) : List Line → List Line
  | [] => []
  | _ :: lines => stdin.flatMap echo ++ [] :: lines.flatMap echo

theorem scan_block {lines : List Line} (hhead : ∀ line ∈ lines.head?, isCrates line)
    (htail : ∀ line ∈ lines.dropWhile (· ≠ []), isCrates line = false) :
    (scan step ⟨false, stdin⟩ lines).2 = fromEmpty stdin (lines.dropWhile (· ≠ [])) := by
  cases lines with
  | nil => rfl
  | cons line lines =>
    have hcrates : isCrates line := hhead line rfl
    have hne : line ≠ [] := by
      rintro rfl
      cases hcrates
    have hfirst : step ⟨false, stdin⟩ line = (⟨true, stdin⟩, []) := by simp [step, hcrates, hne]
    rw [List.dropWhile_cons_of_pos (by simpa using hne)] at htail ⊢
    have hparts := List.takeWhile_append_dropWhile (p := (· ≠ [])) (l := lines)
    have hinside : ∀ l ∈ lines.takeWhile (· ≠ []), l ≠ [] := fun l hl => by simpa using List.mem_takeWhile_imp hl
    rw [scan_cons, hfirst, List.nil_append]
    dsimp only
    conv_lhs => rw [← hparts]
    rw [scan_append, scan_inside hinside, List.nil_append]
    cases hrest : lines.dropWhile (· ≠ []) with
    | nil => rfl
    | cons first more =>
      have hnil := List.head?_dropWhile_not (· ≠ []) lines
      rw [hrest] at hnil htail
      have hempty : first = [] := by simpa using hnil
      have hlast : step ⟨true, stdin⟩ [] = (⟨false, []⟩, stdin.flatMap echo ++ [[]]) := rfl
      dsimp only
      rw [scan_cons, hempty, hlast, scan_outside fun l hl => htail l (List.mem_cons_of_mem _ hl), fromEmpty,
        List.append_assoc]
      rfl

end Loop

section Blocks
variable (m : Makefile) (stdin : List Char)

theorem Makefile.block_ne : m.block ≠ [] := by
  intro h
  have hstarts := m.starts
  rw [h] at hstarts
  cases hstarts

theorem dropWhile_block {block : List Line} (after : List Line) (h : ∀ line ∈ block.dropLast, line ≠ []) :
    (block ++ after).dropWhile (· ≠ []) =
      if block.getLast? = some [] then [] :: after else after.dropWhile (· ≠ []) := by
  rcases List.eq_nil_or_concat block with rfl | ⟨front, last, rfl⟩
  · rfl
  · rw [List.concat_eq_append, List.dropLast_concat] at h
    rw [List.concat_eq_append, List.append_assoc, List.dropWhile_append_of_pos (by simpa using h),
      List.getLast?_concat]
    by_cases hlast : last = []
    · simp [hlast]
    · simp [hlast]

theorem mem_fromEmpty {input lines : List Line} {out : Line} (h : out ∈ fromEmpty input lines) :
    ∃ line ∈ input ++ [] :: lines, out ∈ echo line := by
  cases lines with
  | nil => cases h
  | cons first lines =>
    simp only [fromEmpty, List.mem_append, List.mem_flatMap, List.mem_cons] at h
    rcases h with ⟨line, hline, hout⟩ | rfl | ⟨line, hline, hout⟩
    · exact ⟨line, List.mem_append_left _ hline, hout⟩
    · exact ⟨[], by simp, List.mem_singleton.2 rfl⟩
    · exact ⟨line, by simp [hline], hout⟩

/-- What the loop sees: of the lines from the assignment on, the last may be lost. -/
structure Seen (block after : List Line) : Prop where
  reads : readLines m.text = m.before ++ (block ++ after)
  front : block <+: m.block
  back : after ⊆ m.after
  none : block = [] → after = []

def written (block after : List Line) : List Line :=
  m.before.flatMap echo ++
    fromEmpty (readLines stdin) (if block.getLast? = some [] then [] :: after else after.dropWhile (· ≠ []))

variable {m stdin}

theorem Seen.nonempty {block after : List Line} (h : Seen m block after) : ∀ line ∈ block.dropLast, line ≠ [] := by
  intro line hline
  obtain ⟨more, hmore⟩ := h.front
  refine continues_ne (m.continued line ?_)
  rw [← hmore]
  rcases List.eq_nil_or_concat more with rfl | ⟨front, last, rfl⟩
  · rwa [List.append_nil]
  · rw [List.concat_eq_append, ← List.append_assoc, List.dropLast_concat]
    exact List.mem_append_left _ ((List.dropLast_subset _) hline)

theorem Seen.starts {block after : List Line} (h : Seen m block after) :
    ∀ line ∈ (block ++ after).head?, isCrates line := by
  intro line hline
  obtain ⟨more, hmore⟩ := h.front
  have hstarts := m.starts
  cases block with
  | nil =>
    rw [h.none rfl] at hline
    cases hline
  | cons first block =>
    rw [← hmore] at hstarts
    cases hline
    exact hstarts

theorem Seen.output {block after : List Line} (h : Seen m block after) :
    linesOf (updateCrates m.text stdin) = written m stdin block after := by
  have hbefore : ∀ line ∈ m.before, isCrates line = false := fun line hline =>
    m.alone line (List.mem_append_left _ hline)
  have hafter : ∀ line ∈ after, isCrates line = false := fun line hline =>
    m.alone line (List.mem_append_right _ (h.back hline))
  have hdrop := dropWhile_block after h.nonempty
  have htail : ∀ line ∈ (block ++ after).dropWhile (· ≠ []), isCrates line = false := by
    intro line hline
    rw [hdrop] at hline
    split_ifs at hline
    · rcases List.mem_cons.1 hline with rfl | hline
      · rfl
      · exact hafter line hline
    · exact hafter line ((List.dropWhile_sublist _).subset hline)
  have hplain : ∀ line ∈ m.before ++ (block ++ after), '\n' ∉ line := fun line hline =>
    readLines_plain (h.reads ▸ hline)
  rw [updateCrates, h.reads, scan_append, scan_outside hbefore]
  dsimp only
  rw [scan_block h.starts htail, written, ← hdrop, linesOf_ofLines]
  intro out hout
  rcases List.mem_append.1 hout with hout | hout
  · obtain ⟨line, hline, hout⟩ := List.mem_flatMap.1 hout
    exact echo_subset_plain hout (hplain line (List.mem_append_left _ hline))
  · obtain ⟨line, hline, hout⟩ := mem_fromEmpty hout
    refine echo_subset_plain hout ?_
    rcases List.mem_append.1 hline with hline | hline
    · exact readLines_plain hline
    · rcases List.mem_cons.1 hline with rfl | hline
      · exact List.not_mem_nil
      · exact hplain line (List.mem_append_right _ ((List.dropWhile_sublist _).subset hline))

theorem seen_cases (m : Makefile) : (Whole m.text ∧ Seen m m.block m.after) ∨
    (¬ Whole m.text ∧ m.after = [] ∧ [] ∉ m.block ∧ Seen m m.block.dropLast []) ∨
    (¬ Whole m.text ∧ ∃ after last, m.after = after ++ [last] ∧ last ≠ [] ∧ Seen m m.block after) := by
  by_cases hwhole : Whole m.text
  · exact .inl ⟨hwhole, hwhole.trans m.lines, List.prefix_refl _, fun _ h => h, fun h => absurd h m.block_ne⟩
  obtain ⟨last, hlast, hlines⟩ := (linesOf_cases m.text).resolve_left hwhole
  refine .inr ?_
  rcases List.eq_nil_or_concat m.after with hafter | ⟨after, final, hafter⟩
  · obtain ⟨front, final, hblock⟩ := (List.eq_nil_or_concat m.block).resolve_left m.block_ne
    rw [List.concat_eq_append] at hblock
    rw [m.lines, hafter, hblock, List.append_nil, ← List.append_assoc] at hlines
    obtain ⟨hseen, hfinal⟩ := List.append_inj' hlines rfl
    obtain rfl := (List.cons.inj hfinal).1
    have hfront : m.block.dropLast = front := by rw [hblock, List.dropLast_concat]
    refine .inl ⟨hwhole, hafter, ?_, ?_, ?_, List.nil_subset _, fun _ => rfl⟩
    · rw [hblock, List.mem_append, List.mem_singleton]
      rintro (hmem | hmem)
      · exact continues_ne (m.continued [] (hfront ▸ hmem)) rfl
      · exact hlast hmem.symm
    · rw [hfront, List.append_nil, hseen]
    · exact List.dropLast_prefix _
  · rw [List.concat_eq_append] at hafter
    rw [m.lines, hafter, ← List.append_assoc, ← List.append_assoc] at hlines
    obtain ⟨hseen, hfinal⟩ := List.append_inj' hlines rfl
    obtain rfl := (List.cons.inj hfinal).1
    refine .inr ⟨hwhole, after, final, hafter, hlast, ?_, List.prefix_refl _, ?_, fun h => absurd h m.block_ne⟩
    · rw [← hseen, List.append_assoc]
    · rw [hafter]
      exact List.subset_append_left _ _

theorem readLines_subset (text : List Char) : readLines text ⊆ linesOf text := by
  intro line hline
  rcases linesOf_cases text with hwhole | ⟨last, -, hlast⟩
  · exact hwhole ▸ hline
  · rw [hlast]
    exact List.mem_append_left _ hline

theorem not_option_of_written {block after : List Line} {out : Line} (h : out ∈ written m stdin block after) :
    ¬ IsOption out := by
  rcases List.mem_append.1 h with h | h
  · obtain ⟨line, -, hout⟩ := List.mem_flatMap.1 h
    exact not_option_of_echo hout
  · obtain ⟨line, -, hout⟩ := mem_fromEmpty h
    exact not_option_of_echo hout

theorem fromEmpty_plain {input lines : List Line} (hinput : ∀ line ∈ input, ¬ IsOption line)
    (hlines : ∀ line ∈ lines, ¬ IsOption line) (hhead : ∀ line ∈ lines.head?, line = []) :
    fromEmpty input lines = if lines = [] then [] else input ++ lines := by
  cases lines with
  | nil => rfl
  | cons first lines =>
    rw [fromEmpty, echo_plain hinput, echo_plain fun l hl => hlines l (List.mem_cons_of_mem _ hl), hhead first rfl,
      if_neg (List.cons_ne_nil _ _)]

/-- From the empty line on, that of the block or the first after it. -/
def tailOf (block after : List Line) : List Line :=
  if block.getLast? = some [] then [] :: after else after.dropWhile (· ≠ [])

def outcome (input block after : List Line) : List Line :=
  if tailOf block after = [] then [] else input ++ tailOf block after

theorem Seen.written_eq {block after : List Line} (h : Seen m block after)
    (hoptions : ∀ line ∈ m.before ++ (linesOf stdin ++ m.after), ¬ IsOption line) :
    written m stdin block after = m.before ++ outcome (readLines stdin) block after := by
  have hinput : ∀ line ∈ readLines stdin, ¬ IsOption line := fun line hline =>
    hoptions line (by simp [readLines_subset stdin hline])
  have htail : ∀ line ∈ tailOf block after, line = [] ∨ line ∈ after := by
    intro line hline
    unfold tailOf at hline
    split_ifs at hline
    · exact List.mem_cons.1 hline
    · exact .inr ((List.dropWhile_sublist _).subset hline)
  have hhead : ∀ line ∈ (tailOf block after).head?, line = [] := by
    intro line hline
    unfold tailOf at hline
    split_ifs at hline
    · exact (Option.some.inj hline).symm
    · have hnot := List.head?_dropWhile_not (· ≠ []) after
      rw [Option.mem_def.1 hline] at hnot
      simpa using hnot
  have hplain : ∀ line ∈ tailOf block after, ¬ IsOption line := by
    intro line hline
    rcases htail line hline with rfl | hline
    · rintro (h | h) <;> cases h
    · exact hoptions line (by simp [h.back hline])
  rw [written, echo_plain fun line hline => hoptions line (List.mem_append_left _ hline)]
  exact congrArg _ (fromEmpty_plain hinput hplain hhead)

theorem rotated {x y : Line} {lines : List Line} (h : x :: lines = lines ++ [y]) : y = x := by
  induction lines generalizing x with
  | nil => exact (List.cons.inj h).1.symm
  | cons z lines ih =>
    obtain ⟨rfl, hrest⟩ := List.cons.inj h
    exact ih hrest

theorem empty_last {block : List Line} (h : ∀ line ∈ block.dropLast, line ≠ []) :
    [] ∈ block ↔ block.getLast? = some [] := by
  rcases List.eq_nil_or_concat block with rfl | ⟨front, last, rfl⟩
  · simp
  · rw [List.concat_eq_append, List.dropLast_concat] at h
    rw [List.concat_eq_append, List.getLast?_concat, List.mem_append, List.mem_singleton, Option.some.injEq]
    exact ⟨fun hmem => (hmem.resolve_left fun hfront => h [] hfront rfl).symm, fun hlast => .inr hlast.symm⟩

theorem outcome_whole (stdin : List Char) (block after : List Line) :
    outcome (readLines stdin) block after = linesOf stdin ++ after ↔ block.getLast? ≠ some [] ∧
      ((linesOf stdin = [] ∧ after = []) ∨ (Whole stdin ∧ after.head? = some [])) := by
  have hinput := linesOf_cases stdin
  by_cases hend : block.getLast? = some []
  · -- the empty line of the block is written as well
    simp only [outcome, tailOf, hend, if_true, List.cons_ne_nil, if_false, ne_eq, not_true_eq_false, false_and, iff_false]
    intro h
    rcases hinput with hinput | ⟨last, hlast, hinput⟩
    · have hlength := congrArg List.length h
      rw [hinput] at hlength
      simp at hlength
    · rw [hinput, List.append_assoc, List.append_cancel_left_eq] at h
      exact hlast (List.cons.inj h).1.symm
  · rw [outcome, tailOf, if_neg hend]
    constructor
    · intro h
      refine ⟨hend, ?_⟩
      split_ifs at h with hdrop
      · exact .inl (List.append_eq_nil_iff.1 h.symm)
      · have hsuffix := List.dropWhile_suffix (l := after) (· ≠ [])
        have hle := hsuffix.length_le
        have hlength := congrArg List.length h
        rw [List.length_append, List.length_append] at hlength
        have hwhole : Whole stdin := by
          refine hinput.resolve_right ?_
          rintro ⟨last, -, hlast⟩
          rw [hlast, List.length_append, List.length_singleton] at hlength
          omega
        rw [hwhole] at hlength
        have hsame := hsuffix.eq_of_length (by omega)
        have hnot := List.head?_dropWhile_not (· ≠ []) after
        obtain ⟨first, more, hmore⟩ := List.exists_cons_of_ne_nil (hsame ▸ hdrop)
        rw [hsame, hmore] at hnot
        have hfirst : first = [] := by simpa using hnot
        exact .inr ⟨hwhole, by rw [hmore, hfirst, List.head?_cons]⟩
    · rintro ⟨-, ⟨hnone, hafter⟩ | ⟨hwhole, hhead⟩⟩
      · simp [hnone, hafter]
      · obtain ⟨more, hmore⟩ := List.head?_eq_some_iff.1 hhead
        rw [hmore, List.dropWhile_cons_of_neg (by simp), if_neg (List.cons_ne_nil _ _), hwhole]

theorem outcome_lost (stdin : List Char) (block after : List Line) {last : Line} (hlast : last ≠ []) :
    outcome (readLines stdin) block after ≠ linesOf stdin ++ (after ++ [last]) := by
  intro h
  have hlength := congrArg List.length h
  have hinput : (readLines stdin).length ≤ (linesOf stdin).length ∧
      ((readLines stdin).length = (linesOf stdin).length → Whole stdin) := by
    rcases linesOf_cases stdin with hwhole | ⟨final, -, hfinal⟩
    · exact ⟨by rw [hwhole], fun _ => hwhole⟩
    · simp [hfinal]
  by_cases hend : block.getLast? = some []
  · rw [outcome, tailOf, if_pos hend, if_neg (List.cons_ne_nil _ _)] at h hlength
    simp only [List.length_append, List.length_cons, List.length_nil] at hlength
    rw [hinput.2 (by omega), List.append_cancel_left_eq] at h
    exact hlast (rotated h)
  · rw [outcome, tailOf, if_neg hend] at h hlength
    have hle := (List.dropWhile_sublist (l := after) (· ≠ [])).length_le
    split_ifs at h hlength with hdrop
    · simp at h
    · simp only [List.length_append, List.length_cons, List.length_nil] at hlength
      omega

/-- The assignment is replaced just where an empty line follows it. -/
theorem replaced_iff (m : Makefile) (stdin : List Char) : Replaced m stdin ↔ Followed m stdin := by
  have hblock : [] ∈ m.block ↔ m.block.getLast? = some [] := empty_last fun line hline =>
    continues_ne (m.continued line hline)
  have hplain : Replaced m stdin → ∀ line ∈ m.before ++ (linesOf stdin ++ m.after), ¬ IsOption line := by
    intro h line hline
    rw [← h] at hline
    rcases seen_cases m with ⟨-, hseen⟩ | ⟨-, -, -, hseen⟩ | ⟨-, _, _, -, -, hseen⟩ <;>
    · rw [hseen.output] at hline
      exact not_option_of_written hline
  suffices hsuffices : (∀ line ∈ m.before ++ (linesOf stdin ++ m.after), ¬ IsOption line) →
      (Replaced m stdin ↔ [] ∉ m.block ∧
        ((linesOf stdin = [] ∧ m.after = []) ∨ (Whole m.text ∧ Whole stdin ∧ m.after.head? = some []))) from
    ⟨fun h => ⟨hplain h, ((hsuffices (hplain h)).1 h).1, ((hsuffices (hplain h)).1 h).2⟩,
      fun h => (hsuffices h.options).2 ⟨h.block, h.after⟩⟩
  intro hoptions
  unfold Replaced
  rcases seen_cases m with ⟨htext, hseen⟩ | ⟨htext, hafter, hempty, hseen⟩ |
      ⟨htext, after, last, hafter, hlast, hseen⟩ <;>
    rw [hseen.output, hseen.written_eq hoptions, List.append_cancel_left_eq]
  · rw [outcome_whole, ne_eq, ← hblock]
    simp only [htext, true_and]
  · have hend : m.block.dropLast.getLast? ≠ some [] := fun hend =>
      hempty ((List.dropLast_subset _) (List.mem_of_getLast? hend))
    rw [outcome, tailOf, if_neg hend, List.dropWhile_nil, if_pos rfl, hafter, List.append_nil]
    constructor
    · exact fun h => ⟨hempty, .inl ⟨h.symm, rfl⟩⟩
    · rintro ⟨-, ⟨hnone, -⟩ | ⟨hwhole, -⟩⟩
      · exact hnone.symm
      · exact absurd hwhole htext
  · rw [hafter]
    constructor
    · exact fun h => absurd h (outcome_lost stdin m.block after hlast)
    · rintro ⟨-, ⟨-, hnone⟩ | ⟨hwhole, -⟩⟩
      · simp at hnone
      · exact absurd hwhole htext

def followedByAnother : Makefile where
  text := "CARGO_CRATES=\ta-1\nUSES=\tcargo\n".toList
  before := []
  block := ["CARGO_CRATES=\ta-1".toList]
  after := ["USES=\tcargo".toList]
  lines := by decide
  starts := by decide
  continued := by decide
  ends := by decide
  alone := by decide

theorem list_lost : ¬ Replaced followedByAnother "CARGO_CRATES=\tb-1\n".toList := by
  unfold Replaced
  decide

end Blocks
end Mports.CratesUpdate
