import Mports.Distinfo
import Mathlib.Algebra.GroupWithZero.Nat
import Mathlib.Algebra.BigOperators.Group.List.Basic

set_option autoImplicit false

namespace Mports.PackageMessages
open ShellText Distinfo

abbrev Line := List Char

/-- `[ -z "$(tail -c 1 "${message}")" ]`: a newline and a NUL are not in what the shell takes. -/
def endsLine (text : List Char) : Bool := text.getLast?.all fun c => c = '\n' || c = '\x00'

def printMessage (text : List Char) : List Char :=
  if (linesOf text).head?.any fun line => line.head? = some '[' then ofLines (linesOf text).tail.dropLast
  else "\x7bmessage=<<EOD\n".toList ++ text ++ (if endsLine text then [] else ['\n']) ++ "EOD\n\x7d,\n".toList

def merge (texts : List (List Char)) : List Char := "[\n".toList ++ texts.flatMap printMessage ++ "]\n".toList

def mergePkgMessages {Path : Type} (dir : Path → Option (List Char)) (output : Path) (messages : List Path) :
    Option Path × Option (List Char) :=
  let existing := messages.filter fun message => (dir message).isSome
  match existing.length with
  | 0 => (none, none)
  | 1 => (existing.getLast?, none)
  | _ => (some output, some (merge (existing.filterMap dir)))

inductive Entry where
  | message (lines : List Line)
  | other (lines : List Line)

/-- The first line is not blank, and the last one ends with a comma, blanks aside. -/
structure Closed (lines : List Line) : Prop where
  first : ∃ line ∈ lines.head?, line.all isBlank = false
  last : ∃ line ∈ lines.getLast?, (line.reverse.dropWhile isBlank).head? = some ','

/-- The entries that lines inside an array are read as. A message ends at the first line `EOD`. -/
inductive Reads : List Line → List Entry → Prop
  | nil : Reads [] []
  | blank {line : Line} {rest : List Line} {entries : List Entry} :
      line.all isBlank → Reads rest entries → Reads (line :: rest) entries
  | message {lines rest : List Line} {entries : List Entry} :
      "EOD".toList ∉ lines → Reads rest entries →
      Reads ("\x7bmessage=<<EOD".toList :: lines ++ "EOD".toList :: "\x7d,".toList :: rest) (.message lines :: entries)
  | other {lines rest : List Line} {entries : List Entry} :
      Closed lines → Reads rest entries → Reads (lines ++ rest) (.other lines :: entries)

def IsArray (text : List Char) (entries : List Entry) : Prop :=
  ∃ lines, linesOf text = ['['] :: (lines ++ [[']']]) ∧ Reads lines entries

/-- An array file; the entries may begin on its first line. -/
structure ArrayFile where
  text : List Char
  opening : List Char
  lines : List Line
  entries : List Entry
  text_lines : linesOf text = ('[' :: opening) :: (lines ++ [[']']])
  read : Reads (opening :: lines) entries

inductive MessageFile where
  | array (file : ArrayFile)
  | plain (text : List Char)

def MessageFile.text : MessageFile → List Char
  | array file => file.text
  | plain text => text

def MessageFile.entries : MessageFile → List Entry
  | array file => file.entries
  | plain text => [.message (linesOf text)]

/-- The arguments of the script, and the files that exist. -/
structure Messages (Path : Type) where
  dir : Path → Option (List Char)
  output : Path
  messages : List Path
  files : List MessageFile
  texts : messages.filterMap dir = files.map MessageFile.text
  several : 2 ≤ files.length
  apart : output ∉ messages

def Lossless {Path : Type} (m : Messages Path) : Prop :=
  ∃ text, mergePkgMessages m.dir m.output m.messages = (some m.output, some text) ∧
    IsArray text (m.files.flatMap MessageFile.entries)

/-- The script takes the file for what it is. -/
def Kept : MessageFile → Prop
  | .array file => file.opening.all isBlank
  | .plain text => text.head? ≠ some '[' ∧ "EOD".toList ∉ linesOf text ∧ text.getLast? ≠ some '\x00'

section Entries

def filled (lines : List Line) : ℕ := lines.countP fun line => !line.all isBlank

def Entry.weight : Entry → ℕ
  | message lines => filled lines + 3
  | other lines => filled lines

def weight (entries : List Entry) : ℕ := (entries.map Entry.weight).sum

def Entry.Shut : Entry → Prop
  | message lines => "EOD".toList ∉ lines
  | other _ => True

theorem filled_append (a b : List Line) : filled (a ++ b) = filled a + filled b := List.countP_append

theorem filled_cons (line : Line) (lines : List Line) :
    filled (line :: lines) = filled lines + if line.all isBlank then 0 else 1 := by
  rw [filled, List.countP_cons, ← filled]
  cases line.all isBlank <;> rfl

theorem weight_append (a b : List Entry) : weight (a ++ b) = weight a + weight b := by simp [weight]

theorem Reads.weight {lines : List Line} {entries : List Entry} (h : Reads lines entries) :
    filled lines = PackageMessages.weight entries := by
  induction h with
  | nil => rfl
  | blank hblank hrest ih => rw [filled_cons, if_pos hblank, ih, add_zero]
  | @message lines rest entries hshut hrest ih =>
    have hopen : ("\x7bmessage=<<EOD".toList).all isBlank = false := by decide
    have hend : ("EOD".toList).all isBlank = false := by decide
    have hclose : ("\x7d,".toList).all isBlank = false := by decide
    change _ = filled lines + 3 + PackageMessages.weight entries
    rw [← ih, List.cons_append, filled_cons, filled_append, filled_cons, filled_cons]
    simp only [hopen, hend, hclose, Bool.false_eq_true, if_false]
    omega
  | @other lines rest entries hclosed hrest ih =>
    change _ = filled lines + PackageMessages.weight entries
    rw [filled_append, ih]

theorem Reads.shut {lines : List Line} {entries : List Entry} (h : Reads lines entries) : ∀ e ∈ entries, e.Shut := by
  induction h with
  | nil => exact nofun
  | blank hblank hrest ih => exact ih
  | message hshut hrest ih =>
    intro e he
    rw [List.mem_cons] at he
    obtain rfl | he := he
    · exact hshut
    · exact ih e he
  | other hclosed hrest ih =>
    intro e he
    rw [List.mem_cons] at he
    obtain rfl | he := he
    · trivial
    · exact ih e he

theorem Reads.append {a b : List Line} {x y : List Entry} (ha : Reads a x) (hb : Reads b y) :
    Reads (a ++ b) (x ++ y) := by
  induction ha with
  | nil => exact hb
  | blank hblank hrest ih => exact .blank hblank ih
  | @message lines rest entries hshut hrest ih =>
    have hline : "\x7bmessage=<<EOD".toList :: lines ++ "EOD".toList :: "\x7d,".toList :: rest ++ b =
        "\x7bmessage=<<EOD".toList :: lines ++ "EOD".toList :: "\x7d,".toList :: (rest ++ b) := by simp
    rw [hline]
    exact .message hshut ih
  | other hclosed hrest ih =>
    rw [List.append_assoc]
    exact .other hclosed ih

theorem Reads.of_blank {line : Line} {lines : List Line} {entries : List Entry} (h : Reads (line :: lines) entries)
    (hblank : line.all isBlank) : Reads lines entries := by
  generalize hall : line :: lines = all at h
  cases h with
  | nil => cases hall
  | blank _ hrest =>
    cases hall
    exact hrest
  | message _ _ =>
    rw [List.cons_append] at hall
    rw [(List.cons.inj hall).1] at hblank
    exact absurd hblank (by decide)
  | @other taken rest entries hclosed hrest =>
    obtain ⟨first, hfirst, hfull⟩ := hclosed.first
    cases taken with
    | nil => cases hfirst
    | cons head taken =>
      cases hfirst
      rw [(List.cons.inj hall).1, hfull] at hblank
      cases hblank

end Entries

section Files

theorem text_parts (text : List Char) : ∃ front last, text.splitOn '\n' = front ++ [last] ∧
    text = ofLines front ++ last ∧ '\n' ∉ last := by
  have hne := List.splitOn_ne_nil '\n' text
  refine ⟨(text.splitOn '\n').dropLast, (text.splitOn '\n').getLast hne, (List.dropLast_append_getLast hne).symm, ?_, ?_⟩
  · have hjoin : ∀ (front : List Line) (last : Line), ['\n'].intercalate (front ++ [last]) = ofLines front ++ last := by
      intro front last
      induction front with
      | nil => simp [ofLines]
      | cons line front ih =>
        cases front with
        | nil => simp [ofLines]
        | cons line' front =>
          rw [List.cons_append, List.cons_append, List.intercalate_cons_cons, ← List.cons_append, ih]
          simp [ofLines]
    rw [← hjoin, List.dropLast_append_getLast, List.intercalate_splitOn]
  · intro hmem
    exact absurd (part_plain (p := (· == '\n')) (List.getLast_mem hne) '\n' hmem) (by decide)

theorem text_cases (text : List Char) : (ofLines (linesOf text) = text ∧ ∀ c ∈ text.getLast?, c = '\n') ∨
    ∃ front last c, linesOf text = front ++ [last ++ [c]] ∧ text = ofLines front ++ (last ++ [c]) ∧ c ≠ '\n' := by
  obtain ⟨front, last, hparts, htext, hplain⟩ := text_parts text
  rcases List.eq_nil_or_concat last with rfl | ⟨last, c, rfl⟩
  · have hlines : linesOf text = front := by
      rw [linesOf, hparts]
      simp
    refine .inl ⟨by rw [hlines, htext, List.append_nil], fun c hc => ?_⟩
    rw [htext, List.append_nil] at hc
    rcases List.eq_nil_or_concat front with rfl | ⟨front, line, rfl⟩
    · cases hc
    · simpa [ofLines, eq_comm] using hc
  · rw [List.concat_eq_append] at hparts htext hplain
    refine .inr ⟨front, last, c, ?_, htext, fun hc => hplain (by simp [hc])⟩
    rw [linesOf, hparts]
    simp

theorem bracket_iff (text : List Char) :
    ((linesOf text).head?.any fun line => line.head? = some '[') ↔ text.head? = some '[' := by
  obtain ⟨htext, -⟩ | ⟨front, last, c, hlines, htext, -⟩ := text_cases text
  · generalize linesOf text = lines at htext ⊢
    subst htext
    cases lines with
    | nil => simp [ofLines]
    | cons line lines => cases line <;> simp [ofLines]
  · rw [hlines, htext]
    cases front with
    | nil => simp [ofLines]
    | cons line front => cases line <;> simp [ofLines]

/-- The lines printed for a file are those of its entries, or there are less of them. -/
structure Printed (f : MessageFile) (lines : List Line) : Prop where
  text : printMessage f.text = ofLines lines
  whole : ∀ line ∈ lines, '\n' ∉ line
  most : filled lines ≤ weight f.entries
  full : filled lines = weight f.entries → (∀ e ∈ f.entries, e.Shut) → Kept f
  read : Kept f → Reads lines f.entries

theorem printed_array (file : ArrayFile) : Printed (.array file) file.lines where
  text := by
    have hbracket : ((linesOf file.text).head?.any fun line => line.head? = some '[') := by
      rw [file.text_lines]
      rfl
    rw [MessageFile.text, printMessage, if_pos hbracket, file.text_lines, List.tail_cons, List.dropLast_concat]
  whole := fun line hline => by
    have hmem : line ∈ linesOf file.text := by
      rw [file.text_lines]
      exact List.mem_cons_of_mem _ (List.mem_append_left _ hline)
    exact linesOf_plain hmem
  most := by
    have hweight := file.read.weight
    rw [filled_cons] at hweight
    change _ ≤ weight file.entries
    omega
  full := fun hfull _ => by
    have hweight := file.read.weight
    rw [filled_cons] at hweight
    change _ = weight file.entries at hfull
    by_contra hopening
    change ¬ file.opening.all isBlank at hopening
    rw [if_neg hopening] at hweight
    omega
  read := fun hkept => file.read.of_blank hkept

theorem printed_less (lines : List Line) : filled lines.tail.dropLast < weight [.message lines] := by
  have hsub : lines.tail.dropLast.Sublist lines := (List.dropLast_sublist _).trans (List.tail_sublist lines)
  have hle : filled lines.tail.dropLast ≤ filled lines := hsub.countP_le
  have hweight : weight [.message lines] = filled lines + 3 := rfl
  omega

theorem printed_bracket {text : List Char} (h : text.head? = some '[') :
    Printed (.plain text) (linesOf text).tail.dropLast where
  text := by rw [MessageFile.text, printMessage, if_pos ((bracket_iff text).2 h)]
  whole := fun line hline => linesOf_plain (List.mem_of_mem_tail ((List.dropLast_subset _) hline))
  most := (printed_less _).le
  full := fun hfull => absurd hfull (printed_less _).ne
  read := fun hkept => absurd h hkept.1

def messageLines (lines : List Line) : List Line :=
  "\x7bmessage=<<EOD".toList :: (lines ++ ["EOD".toList, "\x7d,".toList])

theorem filled_messageLines (lines : List Line) : filled (messageLines lines) = filled lines + 3 := by
  have hopen : ("\x7bmessage=<<EOD".toList).all isBlank = false := by decide
  have hend : filled ["EOD".toList, "\x7d,".toList] = 2 := by decide
  rw [messageLines, filled_cons, filled_append, hend, hopen]
  rfl

theorem printMessage_plain {text : List Char} (h : text.head? ≠ some '[') : printMessage text =
    "\x7bmessage=<<EOD\n".toList ++ (text ++ ((if endsLine text then [] else ['\n']) ++ "EOD\n\x7d,\n".toList)) := by
  rw [printMessage, if_neg ((bracket_iff text).not.2 h)]
  simp only [List.append_assoc]

theorem ofLines_message (lines : List Line) : ofLines (messageLines lines) =
    "\x7bmessage=<<EOD\n".toList ++ (ofLines lines ++ "EOD\n\x7d,\n".toList) := by
  simp [messageLines, ofLines]

theorem message_whole {lines : List Line} (h : ∀ line ∈ lines, '\n' ∉ line) :
    ∀ line ∈ messageLines lines, '\n' ∉ line := by
  intro line hline
  simp only [messageLines, List.mem_cons, List.mem_append, List.not_mem_nil, or_false] at hline
  obtain rfl | hline | rfl | rfl := hline
  · decide
  · exact h line hline
  · decide
  · decide

theorem printed_message {text : List Char} (h : text.head? ≠ some '[') (hnul : text.getLast? ≠ some '\x00') :
    Printed (.plain text) (messageLines (linesOf text)) where
  text := by
    rw [MessageFile.text, printMessage_plain h, ofLines_message]
    obtain ⟨htext, hlast⟩ | ⟨front, last, c, hlines, htext, hc⟩ := text_cases text
    · have hends : endsLine text = true := by
        unfold endsLine
        cases hend : text.getLast? with
        | none => rfl
        | some c => simp [hlast c hend]
      rw [htext, hends]
      rfl
    · have hends : endsLine text = false := by
        rw [htext, ← List.append_assoc, List.getLast?_concat, ne_eq, Option.some.injEq] at hnul
        rw [endsLine, htext, ← List.append_assoc, List.getLast?_concat]
        simp [hc, hnul]
      have hfull : ofLines (linesOf text) = text ++ ['\n'] := by
        rw [hlines, htext]
        simp [ofLines]
      rw [hends, hfull, List.append_assoc]
      rfl
  whole := message_whole fun line hline => linesOf_plain hline
  most := (filled_messageLines _).le
  full := fun _ hshut => ⟨h, hshut _ List.mem_cons_self, hnul⟩
  read := fun hkept => .message hkept.2.1 .nil

theorem printed_nul {text : List Char} (h : text.head? ≠ some '[') (hnul : text.getLast? = some '\x00') :
    ∃ lines, Printed (.plain text) lines := by
  obtain ⟨-, hlast⟩ | ⟨front, last, c, hlines, htext, -⟩ := text_cases text
  · exact absurd (hlast _ hnul) (by decide)
  · have hc : c = '\x00' := by
      rw [htext, ← List.append_assoc, List.getLast?_concat, Option.some.injEq] at hnul
      exact hnul
    subst hc
    have hplain : ∀ line ∈ front ++ [last ++ ['\x00']], '\n' ∉ line := fun line hline => linesOf_plain (hlines ▸ hline)
    have hless : filled ("\x7bmessage=<<EOD".toList :: (front ++ [last ++ '\x00' :: "EOD".toList, "\x7d,".toList])) <
        weight (MessageFile.plain text).entries := by
      have hopen : ("\x7bmessage=<<EOD".toList).all isBlank = false := by decide
      have hend : ∀ line : Line, filled [line, "\x7d,".toList] ≤ 2 := fun line => List.countP_le_length
      have hone : filled [last ++ ['\x00']] = 1 := by
        rw [filled_cons, List.all_append]
        simp [filled, isBlank]
      have hweight : weight (MessageFile.plain text).entries = filled (linesOf text) + 3 := rfl
      have hlast := hend (last ++ '\x00' :: "EOD".toList)
      rw [hweight, hlines, filled_append, filled_cons, filled_append, hopen, hone]
      simp only [Bool.false_eq_true, if_false]
      omega
    refine ⟨_, ?_, ?_, hless.le, fun hfull => absurd hfull hless.ne, fun hkept => absurd hnul hkept.2.2⟩
    · have hends : endsLine text = true := by
        rw [endsLine, hnul]
        rfl
      rw [MessageFile.text, printMessage_plain h, hends, htext]
      simp [ofLines]
    · intro line hline
      simp only [List.mem_cons, List.mem_append, List.not_mem_nil, or_false] at hline
      obtain rfl | hline | rfl | rfl := hline
      · decide
      · exact hplain line (List.mem_append_left _ hline)
      · have hlast := hplain _ (List.mem_append_right _ List.mem_cons_self)
        intro hmem
        rw [List.mem_append, List.mem_cons] at hmem
        obtain hmem | hmem | hmem := hmem
        · exact hlast (List.mem_append_left _ hmem)
        · exact absurd hmem (by decide)
        · exact absurd hmem (by decide)
      · decide

theorem printed_file (f : MessageFile) : ∃ lines, Printed f lines := by
  cases f with
  | array file => exact ⟨_, printed_array file⟩
  | plain text =>
    by_cases h : text.head? = some '['
    · exact ⟨_, printed_bracket h⟩
    · by_cases hnul : text.getLast? = some '\x00'
      · exact printed_nul h hnul
      · exact ⟨_, printed_message h hnul⟩

end Files

section Merged

/-- The lines of all files: they are those of the entries just where each file is kept. -/
theorem printed_files (files : List MessageFile) : ∃ lines,
    (files.map MessageFile.text).flatMap printMessage = ofLines lines ∧ (∀ line ∈ lines, '\n' ∉ line) ∧
    filled lines ≤ weight (files.flatMap MessageFile.entries) ∧
    (filled lines = weight (files.flatMap MessageFile.entries) →
      (∀ e ∈ files.flatMap MessageFile.entries, e.Shut) → ∀ f ∈ files, Kept f) ∧
    ((∀ f ∈ files, Kept f) → Reads lines (files.flatMap MessageFile.entries)) := by
  induction files with
  | nil => exact ⟨[], rfl, nofun, le_refl _, fun _ _ => nofun, fun _ => .nil⟩
  | cons f files ih =>
    obtain ⟨lines, h⟩ := printed_file f
    obtain ⟨rest, htext, hwhole, hmost, hfull, hread⟩ := ih
    rw [List.flatMap_cons, weight_append]
    refine ⟨lines ++ rest, ?_, fun line hline => ?_, ?_, fun heq hshut => ?_, fun hkept => ?_⟩
    · rw [List.map_cons, List.flatMap_cons, h.text, htext, ofLines, ofLines, ofLines, List.flatMap_append]
    · exact (List.mem_append.1 hline).elim (h.whole line) (hwhole line)
    · have hfirst := h.most
      rw [filled_append]
      omega
    · have hfirst := h.most
      rw [filled_append] at heq
      have hkept := h.full (by omega) fun e he => hshut e (List.mem_append_left _ he)
      have hothers := hfull (by omega) fun e he => hshut e (List.mem_append_right _ he)
      exact List.forall_mem_cons.2 ⟨hkept, hothers⟩
    · have hall := List.forall_mem_cons.1 hkept
      exact (h.read hall.1).append (hread hall.2)

theorem mergePkgMessages_eq {Path : Type} (m : Messages Path) :
    mergePkgMessages m.dir m.output m.messages = (some m.output, some (merge (m.files.map MessageFile.text))) := by
  have htexts : ∀ paths : List Path, (paths.filter fun path => (m.dir path).isSome).filterMap m.dir =
      paths.filterMap m.dir ∧ (paths.filter fun path => (m.dir path).isSome).length = (paths.filterMap m.dir).length := by
    intro paths
    induction paths with
    | nil => exact ⟨rfl, rfl⟩
    | cons path paths ih =>
      cases hpath : m.dir path with
      | none => simpa [hpath] using ih
      | some text => simpa [hpath] using ih
  have hseveral := m.several
  rw [← List.length_map MessageFile.text, ← m.texts, ← (htexts m.messages).2] at hseveral
  rw [mergePkgMessages]
  split
  · omega
  · omega
  · rw [(htexts m.messages).1, m.texts]

/-- Nothing is lost just where each file is taken for what it is. -/
theorem lossless_iff {Path : Type} (m : Messages Path) : Lossless m ↔ ∀ f ∈ m.files, Kept f := by
  obtain ⟨lines, htext, hwhole, -, hfull, hread⟩ := printed_files m.files
  have houtput : merge (m.files.map MessageFile.text) = ofLines (['['] :: (lines ++ [[']']])) := by
    rw [merge, htext]
    simp [ofLines]
  have hlines : linesOf (ofLines (['['] :: (lines ++ [[']']]))) = ['['] :: (lines ++ [[']']]) := by
    refine linesOf_ofLines fun line hline => ?_
    simp only [List.mem_cons, List.mem_append, List.not_mem_nil, or_false] at hline
    obtain rfl | hline | rfl := hline
    · decide
    · exact hwhole line hline
    · decide
  rw [Lossless, mergePkgMessages_eq, houtput]
  constructor
  · rintro ⟨text, hwritten, body, hbody, hreads⟩
    obtain rfl := Option.some.inj (Prod.ext_iff.1 hwritten).2
    rw [hlines, List.cons.injEq, List.append_cancel_right_eq] at hbody
    obtain ⟨-, rfl⟩ := hbody
    exact hfull hreads.weight hreads.shut
  · intro hkept
    exact ⟨_, rfl, lines, hlines, hread hkept⟩

/-- The second line of the first message is `EOD`. -/
def endedEarly : Messages (Fin 3) where
  dir message := if message = 0 then some "See\nEOD\n".toList else if message = 1 then some "Run\n".toList else none
  output := 2
  messages := [0, 1]
  files := [.plain "See\nEOD\n".toList, .plain "Run\n".toList]
  texts := rfl
  several := le_refl _
  apart := by decide

theorem heredoc_ended : ¬ Lossless endedEarly := by
  rintro ⟨text, -, body, -, hreads⟩
  have hshut : "EOD".toList ∉ linesOf "See\nEOD\n".toList :=
    hreads.shut (.message (linesOf "See\nEOD\n".toList)) List.mem_cons_self
  exact absurd hshut (by decide)

end Merged

end Mports.PackageMessages
