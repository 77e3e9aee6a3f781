import Mports.KeyedWrites
import Mports.LineScans
import Mports.PerlText
import Mathlib.Data.List.Perm.Subperm

set_option autoImplicit false

namespace Mports.PatchSplit
open PerlText LineScans KeyedWrites

abbrev Text := List Char

abbrev Line := List Char

def stars : Text := "***".toList
def dashes : Text := "---".toList
def pluses : Text := "+++".toList

/-- `/^mark\s+/`, and what comes after it. The newline counts as white space. -/
def behind (mark : Text) (line : Line) : Option Text :=
  let rest := line.drop mark.length ++ ['\n']
  if mark.isPrefixOf line && rest.head?.any isSpace then some (rest.dropWhile isSpace) else none

/-- `\d+,\d+\s+`. -/
def isRange (text : Text) : Bool :=
  let after := text.dropWhile Char.isDigit
  text.head?.any Char.isDigit && after.head? = some ',' && after.tail.head?.any Char.isDigit &&
    (after.tail.dropWhile Char.isDigit).head?.any isSpace

/-- `/^mark\s+/ && !/^mark\s+\d+,\d+\s+/`. -/
def isHeader (mark : Text) (line : Line) : Bool := (behind mark line).any fun rest => !isRange rest

/-- `(\S+)\s+`; the newline ends the last word. -/
def word (text : Text) : Option Text :=
  let w := text.takeWhile fun c => !isSpace c
  if w = [] then none else some w

def contextWord (text : Text) : Option Text := if isRange text then none else word text

inductive Mode where
  | nofile | cstart | ustart | body
  deriving DecidableEq

structure State where
  mode : Mode
  fl : Line
  out : Text
  abort : Bool
  files : Text → Option (List Line)

inductive Message where
  | wrote (out : Text)
  | cannotCreate (out error : Text)
  | badContext
  | badUnified

def Message.text (file : Text) : Message → Text
  | wrote out => "Wrote ".toList ++ out ++ "\n".toList
  | cannotCreate out error => "Cannot create ".toList ++ out ++ ": ".toList ++ error ++ ", aborting\n".toList
  | badContext => "Bad context diff in ".toList ++ file ++ ", aborting\n".toList
  | badUnified => "Bad unified diff in ".toList ++ file ++ ", aborting\n".toList

/-- `s|/|__|g` and the name with it. -/
def patchName (w : Text) : Text := "patch-".toList ++ w.flatMap fun c => if c = '/' then ['_', '_'] else [c]

section
-- the error with which a file is not created
variable (fails : Text → Option Text)

/-- What `cstart` and `ustart` do with the word of the second header. -/
def create (s : State) (bad : Message) (line : Line) : Option Text → State × List Message
  | none => ({ s with abort := true }, [bad])
  | some w =>
    let out := patchName w
    match fails out with
    | none => ({ s with mode := .body, out := out, files := Function.update s.files out (some [s.fl, line]) }, [])
    | some error => ({ s with mode := .body, out := out, abort := true }, [.cannotCreate out error])

def nofile (s : State) (line : Line) : State × List Message :=
  if isHeader stars line then ({ s with mode := .cstart, fl := line }, [])
  else if isHeader dashes line then ({ s with mode := .ustart, fl := line }, [])
  else (s, [])

def cstart (s : State) (line : Line) : State × List Message :=
  create fails s .badContext line ((behind dashes line).bind contextWord)

def ustart (s : State) (line : Line) : State × List Message :=
  create fails s .badUnified line ((behind pluses line).bind word)

def body (s : State) (line : Line) : State × List Message :=
  if isHeader stars line then ({ s with mode := .cstart, fl := line }, [.wrote s.out])
  else if isHeader dashes line then ({ s with mode := .ustart, fl := line }, [.wrote s.out])
  else ({ s with files := Function.update s.files s.out ((s.files s.out).map (· ++ [line])) }, [])

def step (s : State) (line : Line) : State × List Message :=
  if s.abort then (s, [])
  else match s.mode with
    | .nofile => nofile s line
    | .cstart => cstart fails s line
    | .ustart => ustart fails s line
    | .body => body s line

def start : State where
  mode := .nofile
  fl := []
  out := []
  abort := false
  files := fun _ => none

/-- The files that it writes for one of its arguments, and what it prints. -/
def splitpatch (file : Text) (lines : List Line) : (Text → Option (List Line)) × List Text :=
  let (s, messages) := scan (step fails) start lines
  let last := if s.out ≠ [] && !s.abort then [.wrote s.out] else []
  (s.files, (messages ++ last).map (Message.text file))

end

/-- The lines a part of a hunk has in a file. -/
inductive Range where
  | one (n : ℕ)
  | two (first second : ℕ)

def Range.text : Range → Text
  | one n => (toString n).toList
  | two first second => (toString first).toList ++ ',' :: (toString second).toList

def noNewline : Line := '\\' :: " No newline at end of file".toList

inductive UnifiedLine where
  | kept (text : Text)
  | removed (text : Text)
  | added (text : Text)
  | noNewline

def UnifiedLine.line : UnifiedLine → Line
  | kept text => ' ' :: text
  | removed text => '-' :: text
  | added text => '+' :: text
  | noNewline => PatchSplit.noNewline

structure UnifiedHunk where
  old : Range
  new : Range
  title : Text
  lines : List UnifiedLine

def UnifiedHunk.text (h : UnifiedHunk) : List Line :=
  ("@@ -".toList ++ h.old.text ++ " +".toList ++ h.new.text ++ " @@".toList ++ h.title) ::
    h.lines.map UnifiedLine.line

inductive ContextLine where
  | kept (text : Text)
  | sided (text : Text)
  | changed (text : Text)
  | noNewline

def ContextLine.line (side : Char) : ContextLine → Line
  | kept text => ' ' :: ' ' :: text
  | sided text => side :: ' ' :: text
  | changed text => '!' :: ' ' :: text
  | noNewline => PatchSplit.noNewline

structure ContextHunk where
  title : Text
  old : Range
  oldLines : List ContextLine
  new : Range
  newLines : List ContextLine

def ContextHunk.text (h : ContextHunk) : List Line :=
  ("***************".toList ++ h.title) :: ("*** ".toList ++ h.old.text ++ " ****".toList) ::
    (h.oldLines.map (ContextLine.line '-') ++
      ("--- ".toList ++ h.new.text ++ " ----".toList) :: h.newLines.map (ContextLine.line '+'))

inductive Hunks where
  | unified (hunks : List UnifiedHunk)
  | context (hunks : List ContextHunk)

def Hunks.text : Hunks → List Line
  | unified hunks => hunks.flatMap UnifiedHunk.text
  | context hunks => hunks.flatMap ContextHunk.text

/-- The path of a header, and the tab and the date after it. -/
structure Header where
  path : Text
  stamp : Text

def Header.line (mark : Text) (h : Header) : Line := mark ++ ' ' :: (h.path ++ h.stamp)

def Header.rest (h : Header) : Text := (h.path ++ h.stamp ++ ['\n']).dropWhile isSpace

structure FilePatch where
  source : Header
  target : Header
  hunks : Hunks

namespace FilePatch

def first (p : FilePatch) : Line :=
  match p.hunks with
  | .unified _ => p.source.line dashes
  | .context _ => p.source.line stars

def second (p : FilePatch) : Line :=
  match p.hunks with
  | .unified _ => p.target.line pluses
  | .context _ => p.target.line dashes

def lines (p : FilePatch) : List Line := p.first :: p.second :: p.hunks.text

def word (p : FilePatch) : Option Text :=
  match p.hunks with
  | .unified _ => PatchSplit.word p.target.rest
  | .context _ => contextWord p.target.rest

def name (p : FilePatch) : Text := patchName (p.word.getD [])

end FilePatch

def fileLines (f : List FilePatch) : List Line := f.flatMap FilePatch.lines

/-- Each patch has a file with its lines and a name of its own, and there are no other files. -/
def Split (f : List FilePatch) (files : Text → Option (List Line)) : Prop :=
  ∃ names : List Text, names.Nodup ∧ (∀ name, files name ≠ none ↔ name ∈ names) ∧
    names.map files = f.map fun p => some p.lines

/-- No removed line looks like the header of a unified patch, and no range of a context patch is
written with one number. -/
def Hunks.Plain : Hunks → Prop
  | unified hunks => ∀ h ∈ hunks, ∀ text, .removed text ∈ h.lines → isHeader dashes ('-' :: text) = false
  | context hunks => ∀ h ∈ hunks, ∀ range ∈ [h.old, h.new], ∃ a b, range = .two a b

structure Recognised (fails : Text → Option Text) (f : List FilePatch) : Prop where
  sources : ∀ p ∈ f, isRange p.source.rest = false
  targets : ∀ p ∈ f, p.word ≠ none
  hunks : ∀ p ∈ f, p.hunks.Plain
  names : (f.map FilePatch.name).Nodup
  created : ∀ p ∈ f, fails p.name = none

section Headers

def isFirst (line : Line) : Bool := isHeader stars line || isHeader dashes line

theorem behind_mark (mark text : Text) :
    behind mark (mark ++ ' ' :: text) = some ((text ++ ['\n']).dropWhile isSpace) := by
  have hstart : mark.isPrefixOf (mark ++ ' ' :: text) = true := List.isPrefixOf_iff_prefix.2 (List.prefix_append _ _)
  have hspace : isSpace ' ' = true := by decide
  simp [behind, hstart, hspace]

theorem behind_other {mark : Text} {line : Line} (h : ¬ mark <+: line) : behind mark line = none := by
  have hstart : mark.isPrefixOf line = false := Bool.eq_false_iff.2 fun hmark => h (List.isPrefixOf_iff_prefix.1 hmark)
  simp [behind, hstart]

theorem isHeader_line (mark : Text) (h : Header) : isHeader mark (h.line mark) = !isRange h.rest := by
  rw [isHeader, Header.line, behind_mark]
  rfl

theorem isHeader_other {mark : Text} {line : Line} (h : ¬ mark <+: line) : isHeader mark line = false := by
  rw [isHeader, behind_other h]
  rfl

theorem unified_first (h : Header) : isHeader stars (h.line dashes) = false := rfl

theorem context_first (h : Header) : isHeader dashes (h.line stars) = false := rfl

theorem unified_second (h : Header) : (behind pluses (h.line pluses)).bind word = word h.rest := by
  rw [Header.line, behind_mark]
  rfl

theorem context_second (h : Header) : (behind dashes (h.line dashes)).bind contextWord = contextWord h.rest := by
  rw [Header.line, behind_mark]
  rfl

theorem isFirst_other {c : Char} {text : Text} (h : c ≠ '*' ∧ c ≠ '-') : isFirst (c :: text) = false := by
  have hstar : ¬ stars <+: c :: text := fun hmark => h.1 (List.cons_prefix_cons.1 hmark).1.symm
  have hdash : ¬ dashes <+: c :: text := fun hmark => h.2 (List.cons_prefix_cons.1 hmark).1.symm
  rw [isFirst, isHeader_other hstar, isHeader_other hdash]
  rfl

theorem isFirst_removed (text : Text) : isFirst ('-' :: text) = isHeader dashes ('-' :: text) := by
  have hstar : ¬ stars <+: '-' :: text := fun hmark => absurd (List.cons_prefix_cons.1 hmark).1 (by decide)
  rw [isFirst, isHeader_other hstar]
  rfl

theorem isFirst_mark (mark text : Text) (h : mark = stars ∨ mark = dashes) :
    isFirst (mark ++ ' ' :: text) = !isRange ((text ++ ['\n']).dropWhile isSpace) := by
  have hmark : isHeader mark (mark ++ ' ' :: text) = !isRange ((text ++ ['\n']).dropWhile isSpace) := by
    rw [isHeader, behind_mark]
    rfl
  rcases h with rfl | rfl
  · have hdash : isHeader dashes (stars ++ ' ' :: text) = false := rfl
    rw [isFirst, hmark, hdash, Bool.or_false]
  · have hstar : isHeader stars (dashes ++ ' ' :: text) = false := rfl
    rw [isFirst, hmark, hstar, Bool.false_or]

end Headers

section Contents

theorem unifiedHunk_plain (h : UnifiedHunk) : (∀ line ∈ h.text, isFirst line = false) ↔
    ∀ text, .removed text ∈ h.lines → isHeader dashes ('-' :: text) = false := by
  constructor
  · intro hall text htext
    rw [← isFirst_removed]
    exact hall _ (List.mem_cons_of_mem _ (List.mem_map.2 ⟨_, htext, rfl⟩))
  · intro hplain line hline
    rcases List.mem_cons.1 hline with rfl | hline
    · exact isFirst_other (by decide)
    · obtain ⟨l, hl, rfl⟩ := List.mem_map.1 hline
      cases l with
      | removed text => exact (isFirst_removed text).trans (hplain text hl)
      | _ => exact isFirst_other (by decide)

theorem head_numeral {a : Text} (hne : a ≠ []) (ha : ∀ c ∈ a, c.isDigit) (rest : Text) :
    (a ++ rest).head?.any Char.isDigit = true := by
  obtain ⟨c, cs, rfl⟩ := List.exists_cons_of_ne_nil hne
  exact ha c List.mem_cons_self

theorem dropWhile_numeral {a : Text} (ha : ∀ c ∈ a, c.isDigit) {c : Char} (hc : c.isDigit = false) (rest : Text) :
    (a ++ c :: rest).dropWhile Char.isDigit = c :: rest := by
  rw [List.dropWhile_append_of_pos ha, List.dropWhile_cons_of_neg (by simp [hc])]

theorem isRange_numeral {a : Text} (hne : a ≠ []) (ha : ∀ c ∈ a, c.isDigit) {c : Char} (hc : c.isDigit = false)
    (rest : Text) : isRange (a ++ c :: rest) =
      (c = ',' && rest.head?.any Char.isDigit && (rest.dropWhile Char.isDigit).head?.any isSpace) := by
  rw [isRange, head_numeral hne ha, dropWhile_numeral ha hc]
  simp

theorem range_head (r : Range) : ∃ c cs, r.text = c :: cs ∧ c.isDigit = true := by
  have hnumeral : ∀ n : ℕ, ∃ c cs, (toString n).toList = c :: cs ∧ c.isDigit = true := by
    intro n
    obtain ⟨c, cs, hcs⟩ := List.exists_cons_of_ne_nil (toString_ne_nil n)
    exact ⟨c, cs, hcs, toString_isDigit n c (by rw [hcs]; exact List.mem_cons_self)⟩
  cases r with
  | one n => exact hnumeral n
  | two a b =>
    obtain ⟨c, cs, hcs, hc⟩ := hnumeral a
    exact ⟨c, _, by rw [Range.text, hcs, List.cons_append], hc⟩

theorem isRange_text (r : Range) (rest : Text) : isRange (r.text ++ ' ' :: rest) = true ↔ ∃ a b, r = .two a b := by
  cases r with
  | one n =>
    refine iff_of_false ?_ (by simp)
    rw [Range.text, isRange_numeral (toString_ne_nil n) (toString_isDigit n) (by decide)]
    simp
  | two a b =>
    refine iff_of_true ?_ ⟨a, b, rfl⟩
    rw [Range.text, List.append_assoc, List.cons_append,
      isRange_numeral (toString_ne_nil a) (toString_isDigit a) (by decide),
      head_numeral (toString_ne_nil b) (toString_isDigit b), dropWhile_numeral (toString_isDigit b) (by decide)]
    rfl

theorem contextLine_plain (side : Char) (h : side ≠ '*') (l : ContextLine) : isFirst (l.line side) = false := by
  cases l with
  | sided text =>
    have hstar : ¬ stars <+: side :: ' ' :: text := fun hmark => h (List.cons_prefix_cons.1 hmark).1.symm
    have hdash : ¬ dashes <+: side :: ' ' :: text := fun hmark =>
      absurd (List.cons_prefix_cons.1 (List.cons_prefix_cons.1 hmark).2).1 (by decide)
    rw [ContextLine.line, isFirst, isHeader_other hstar, isHeader_other hdash]
    rfl
  | _ => exact isFirst_other (by decide)

theorem contextHunk_plain (h : ContextHunk) : (∀ line ∈ h.text, isFirst line = false) ↔
    ∀ range ∈ [h.old, h.new], ∃ a b, range = .two a b := by
  have hrange : ∀ (mark : Text) (r : Range) (behind : Text), mark = stars ∨ mark = dashes →
      (isFirst (mark ++ ' ' :: (r.text ++ ' ' :: behind)) = false ↔ ∃ a b, r = .two a b) := by
    intro mark r behind hmark
    have hstart : (r.text ++ ' ' :: (behind ++ ['\n'])).dropWhile isSpace = r.text ++ ' ' :: (behind ++ ['\n']) := by
      obtain ⟨c, cs, hr, hc⟩ := range_head r
      rw [hr, List.cons_append, List.dropWhile_cons_of_neg (by simp [space_of_digit hc])]
    rw [isFirst_mark mark _ hmark, Bool.not_eq_false', List.append_assoc, List.cons_append, hstart, isRange_text]
  have htitle : isFirst ("***************".toList ++ h.title) = false := by
    have hstar : isHeader stars ("***************".toList ++ h.title) = false := rfl
    have hdash : isHeader dashes ("***************".toList ++ h.title) = false := rfl
    rw [isFirst, hstar, hdash]
    rfl
  have hold := hrange stars h.old "****".toList (.inl rfl)
  have hnew := hrange dashes h.new "----".toList (.inr rfl)
  constructor
  · intro hall range hmem
    rcases List.mem_cons.1 hmem with rfl | hmem
    · exact hold.1 (hall _ (List.mem_cons_of_mem _ List.mem_cons_self))
    · obtain rfl := List.mem_singleton.1 hmem
      refine hnew.1 (hall _ (List.mem_cons_of_mem _ (List.mem_cons_of_mem _ ?_)))
      exact List.mem_append_right _ List.mem_cons_self
  · intro htwo line hline
    have hsides : ∀ side ≠ '*', ∀ ls : List ContextLine, ∀ line ∈ ls.map (ContextLine.line side), isFirst line = false :=
      fun side hside ls => List.forall_mem_map.2 fun l _ => contextLine_plain side hside l
    rcases List.mem_cons.1 hline with rfl | hline
    · exact htitle
    rcases List.mem_cons.1 hline with rfl | hline
    · exact hold.2 (htwo _ List.mem_cons_self)
    rcases List.mem_append.1 hline with hline | hline
    · exact hsides '-' (by decide) _ line hline
    rcases List.mem_cons.1 hline with rfl | hline
    · exact hnew.2 (htwo _ (List.mem_cons_of_mem _ List.mem_cons_self))
    · exact hsides '+' (by decide) _ line hline

theorem hunks_plain (hs : Hunks) : (∀ line ∈ hs.text, isFirst line = false) ↔ hs.Plain := by
  have each : ∀ {α : Type} (text : α → List Line) (P : α → Prop) (as : List α),
      (∀ a, (∀ line ∈ text a, isFirst line = false) ↔ P a) →
      ((∀ line ∈ as.flatMap text, isFirst line = false) ↔ ∀ a ∈ as, P a) := by
    intro α text P as h
    simp only [List.forall_mem_flatMap, h]
  cases hs with
  | unified hunks => exact each _ _ hunks unifiedHunk_plain
  | context hunks => exact each _ _ hunks contextHunk_plain

end Contents

section Running
variable {fails : Text → Option Text} {s : State}

structure Ready (s : State) : Prop where
  mode : s.mode = .nofile ∨ s.mode = .body
  going : s.abort = false

structure Taken (p : FilePatch) : Prop where
  source : isRange p.source.rest = false
  target : p.word ≠ none
  hunks : p.hunks.Plain

theorem scan_aborted (h : s.abort = true) (lines : List Line) : scan (step fails) s lines = (s, []) := by
  rw [scan_steady (step fails) (fun _ => []) fun line _ => by simp [step, h]]
  simp

theorem scan_body {content : List Line} {lines : List Line} (hmode : s.mode = .body) (hgoing : s.abort = false)
    (hout : s.files s.out = some content) (h : ∀ line ∈ lines, isFirst line = false) :
    (scan (step fails) s lines).1 = { s with files := Function.update s.files s.out (some (content ++ lines)) } := by
  induction lines generalizing s content with
  | nil => simp [← hout]
  | cons line lines ih =>
    have hline := h line List.mem_cons_self
    simp only [isFirst, Bool.or_eq_false_iff] at hline
    have hstep : step fails s line =
        ({ s with files := Function.update s.files s.out (some (content ++ [line])) }, []) := by
      simp [step, hgoing, hmode, body, hline.1, hline.2, hout]
    rw [scan_cons, hstep]
    refine (ih (s := { s with files := Function.update s.files s.out (some (content ++ [line])) })
      hmode hgoing (Function.update_self ..) fun l hl => h l (List.mem_cons_of_mem _ hl)).trans ?_
    simp

def FilePatch.mode (p : FilePatch) : Mode :=
  match p.hunks with
  | .unified _ => .ustart
  | .context _ => .cstart

theorem step_first {p : FilePatch} (hs : Ready s) (h : isRange p.source.rest = false) :
    (step fails s p.first).1 = { s with mode := p.mode, fl := p.first } := by
  rcases p with ⟨source, target, hunks⟩
  cases hunks with
  | unified hunks =>
    have hstar := unified_first source
    have hdash : isHeader dashes (source.line dashes) = true := by rw [isHeader_line, h]; rfl
    rcases hs.mode with hmode | hmode <;>
      simp [step, hs.going, hmode, nofile, body, FilePatch.first, FilePatch.mode, hstar, hdash]
  | context hunks =>
    have hstar : isHeader stars (source.line stars) = true := by rw [isHeader_line, h]; rfl
    rcases hs.mode with hmode | hmode <;>
      simp [step, hs.going, hmode, nofile, body, FilePatch.first, FilePatch.mode, hstar]

variable (fails) in
theorem step_second {p : FilePatch} (hgoing : s.abort = false) (hmode : s.mode = p.mode) :
    ∃ bad, step fails s p.second = create fails s bad p.second p.word := by
  rcases p with ⟨source, target, hunks⟩
  cases hunks with
  | unified hunks =>
    refine ⟨.badUnified, ?_⟩
    simp only [step, hgoing, hmode, FilePatch.mode, FilePatch.second, FilePatch.word, ustart, unified_second]
    rfl
  | context hunks =>
    refine ⟨.badContext, ?_⟩
    simp only [step, hgoing, hmode, FilePatch.mode, FilePatch.second, FilePatch.word, cstart, context_second]
    rfl

variable (fails) in
theorem scan_lines {p : FilePatch} (hs : Ready s) (h : isRange p.source.rest = false) :
    ∃ bad, (scan (step fails) s p.lines).1 = (scan (step fails)
      (create fails { s with mode := p.mode, fl := p.first } bad p.second p.word).1 p.hunks.text).1 := by
  obtain ⟨bad, hsecond⟩ := step_second fails (s := { s with mode := p.mode, fl := p.first }) hs.going rfl
  refine ⟨bad, ?_⟩
  rw [FilePatch.lines, scan_cons, step_first hs h, scan_cons, hsecond]

theorem scan_created {p : FilePatch} (hs : Ready s) (h : Taken p) (hcreated : fails p.name = none) :
    Ready (scan (step fails) s p.lines).1 ∧
      (scan (step fails) s p.lines).1.files = write FilePatch.name FilePatch.lines s.files p := by
  obtain ⟨bad, hscan⟩ := scan_lines fails hs h.source
  obtain ⟨w, hw⟩ := Option.ne_none_iff_exists'.1 h.target
  have hname : p.name = patchName w := by rw [FilePatch.name, hw]; rfl
  rw [hname] at hcreated
  let s' : State := { s with
    mode := .body
    fl := p.first
    out := patchName w
    files := Function.update s.files (patchName w) (some [p.first, p.second]) }
  have hcreate : (create fails { s with mode := p.mode, fl := p.first } bad p.second p.word).1 = s' := by
    rw [hw, create]
    simp only [hcreated, s']
  have hbody := @scan_body fails s' _ _ rfl hs.going (Function.update_self ..)
    ((hunks_plain _).2 h.hunks)
  rw [hscan, hcreate, hbody]
  refine ⟨⟨.inr rfl, hs.going⟩, ?_⟩
  rw [write, hname]
  exact Function.update_idem ..

theorem scan_failed {p : FilePatch} (hs : Ready s) (h : Taken p) (hfailed : fails p.name ≠ none) :
    (scan (step fails) s p.lines).1.abort = true ∧ (scan (step fails) s p.lines).1.files = s.files := by
  obtain ⟨bad, hscan⟩ := scan_lines fails hs h.source
  obtain ⟨w, hw⟩ := Option.ne_none_iff_exists'.1 h.target
  have hname : p.name = patchName w := by rw [FilePatch.name, hw]; rfl
  obtain ⟨error, herror⟩ := Option.ne_none_iff_exists'.1 hfailed
  rw [hname] at herror
  have hcreate : (create fails { s with mode := p.mode, fl := p.first } bad p.second p.word).1 =
      { s with mode := .body, fl := p.first, out := patchName w, abort := true } := by
    rw [hw, create]
    simp only [herror]
  rw [hscan, hcreate, scan_aborted rfl]
  exact ⟨rfl, rfl⟩

theorem scan_all {f : List FilePatch} (hs : Ready s) (h : ∀ p ∈ f, Taken p) (hcreated : ∀ p ∈ f, fails p.name = none) :
    (scan (step fails) s (fileLines f)).1.files = writeAll FilePatch.name FilePatch.lines s.files f := by
  induction f generalizing s with
  | nil => rfl
  | cons p f ih =>
    obtain ⟨hready, hfiles⟩ := scan_created hs (h p List.mem_cons_self) (hcreated p List.mem_cons_self)
    rw [fileLines, List.flatMap_cons, scan_append]
    refine (ih hready (fun q hq => h q (List.mem_cons_of_mem _ hq))
      fun q hq => hcreated q (List.mem_cons_of_mem _ hq)).trans ?_
    rw [hfiles]
    rfl

theorem scan_bounded {f : List FilePatch} (hs : Ready s) (h : ∀ p ∈ f, Taken p) {name : Text}
    (hname : (scan (step fails) s (fileLines f)).1.files name ≠ none) :
    s.files name ≠ none ∨ ∃ p ∈ f, fails p.name = none ∧ p.name = name := by
  induction f generalizing s with
  | nil => exact .inl hname
  | cons p f ih =>
    rw [fileLines, List.flatMap_cons, scan_append] at hname
    by_cases hcreated : fails p.name = none
    · obtain ⟨hready, hfiles⟩ := scan_created hs (h p List.mem_cons_self) hcreated
      rcases ih hready (fun q hq => h q (List.mem_cons_of_mem _ hq)) hname with hbefore | ⟨q, hq, hfound⟩
      · rw [hfiles, write, Function.update_apply] at hbefore
        split at hbefore
        · exact .inr ⟨p, List.mem_cons_self, hcreated, Eq.symm ‹_›⟩
        · exact .inl hbefore
      · exact .inr ⟨q, List.mem_cons_of_mem _ hq, hfound⟩
    · obtain ⟨habort, hfiles⟩ := scan_failed hs (h p List.mem_cons_self) hcreated
      rw [scan_aborted habort, hfiles] at hname
      exact .inl hname

def Opens (first second : Line) : Prop :=
  isHeader stars first = true ∧ (behind dashes second).bind contextWord ≠ none ∨
    isHeader dashes first = true ∧ (behind pluses second).bind word ≠ none

def Shaped (content : List Line) : Prop :=
  ∃ first second rest, content = first :: second :: rest ∧ Opens first second ∧ ∀ line ∈ rest, isFirst line = false

/-- Every file is two headers and lines that begin no patch. -/
structure Proper (s : State) : Prop where
  files : ∀ name content, s.files name = some content → Shaped content
  cstart : s.mode = .cstart → isHeader stars s.fl = true
  ustart : s.mode = .ustart → isHeader dashes s.fl = true

theorem Proper.create {bad : Message} {line : Line} {w : Option Text} (h : Proper s)
    (hopens : w ≠ none → Opens s.fl line) : Proper (create fails s bad line w).1 := by
  cases w with
  | none => exact ⟨h.files, h.cstart, h.ustart⟩
  | some w =>
    rw [PatchSplit.create]
    cases hfails : fails (patchName w) with
    | some error => exact ⟨h.files, nofun, nofun⟩
    | none =>
      refine ⟨fun name content hfile => ?_, nofun, nofun⟩
      change Function.update s.files (patchName w) _ name = some content at hfile
      rw [Function.update_apply] at hfile
      split at hfile
      · cases hfile
        exact ⟨s.fl, line, [], rfl, hopens (by simp), nofun⟩
      · exact h.files name content hfile

theorem Proper.body {line : Line} (h : Proper s) : Proper (body s line).1 := by
  unfold PatchSplit.body
  split
  · exact ⟨h.files, fun _ => ‹_›, nofun⟩
  split
  · exact ⟨h.files, nofun, fun _ => ‹_›⟩
  refine ⟨fun name content hfile => ?_, h.cstart, h.ustart⟩
  change Function.update s.files s.out _ name = some content at hfile
  rw [Function.update_apply] at hfile
  split at hfile
  · obtain ⟨old, hold, rfl⟩ := Option.map_eq_some_iff.1 hfile
    obtain ⟨first, second, rest, rfl, hopens, hrest⟩ := h.files _ old hold
    refine ⟨first, second, rest ++ [line], rfl, hopens, List.forall_mem_append.2 ⟨hrest, ?_⟩⟩
    simp_all [isFirst]
  · exact h.files name content hfile

theorem Proper.step (h : Proper s) (line : Line) : Proper (step fails s line).1 := by
  unfold PatchSplit.step
  split
  · exact h
  cases hmode : s.mode with
  | nofile =>
    change Proper (nofile s line).1
    unfold nofile
    split
    · exact ⟨h.files, fun _ => ‹_›, nofun⟩
    split
    · exact ⟨h.files, nofun, fun _ => ‹_›⟩
    · exact h
  | cstart => exact h.create fun hw => .inl ⟨h.cstart hmode, hw⟩
  | ustart => exact h.create fun hw => .inr ⟨h.ustart hmode, hw⟩
  | body => exact h.body

theorem Proper.scan (h : Proper s) (lines : List Line) : Proper (scan (PatchSplit.step fails) s lines).1 := by
  induction lines generalizing s with
  | nil => exact h
  | cons line lines ih => exact ih (h.step line)

theorem proper_start : Proper start := ⟨nofun, nofun, nofun⟩

/-- A patch the lines of which are those of a file is one that the script takes for a patch. -/
theorem taken_of_shaped {p : FilePatch} (h : Shaped p.lines) : Taken p := by
  obtain ⟨first, second, rest, heq, hopens, hrest⟩ := h
  rw [FilePatch.lines, List.cons.injEq, List.cons.injEq] at heq
  obtain ⟨rfl, rfl, rfl⟩ := heq
  have hplain := (hunks_plain _).1 hrest
  rcases p with ⟨source, target, hunks⟩
  cases hunks with
  | unified hunks =>
    rcases hopens with ⟨hfirst, _⟩ | ⟨hfirst, hsecond⟩
    · cases (unified_first source).symm.trans hfirst
    · refine ⟨?_, ?_, hplain⟩
      · simpa using (isHeader_line dashes source).symm.trans hfirst
      · change (behind pluses (target.line pluses)).bind word ≠ none at hsecond
        rwa [unified_second] at hsecond
  | context hunks =>
    rcases hopens with ⟨hfirst, hsecond⟩ | ⟨hfirst, _⟩
    · refine ⟨?_, ?_, hplain⟩
      · simpa using (isHeader_line stars source).symm.trans hfirst
      · change (behind dashes (target.line dashes)).bind contextWord ≠ none at hsecond
        rwa [context_second] at hsecond
    · cases (context_first source).symm.trans hfirst

theorem taken_of_contents (fails : Text → Option Text) (file : Text) (lines : List Line) {f : List FilePatch}
    {names : List Text} (h : names.map (splitpatch fails file lines).1 = f.map fun p => some p.lines) :
    ∀ p ∈ f, Taken p := by
  intro p hp
  have hmem : some p.lines ∈ names.map (splitpatch fails file lines).1 := by
    rw [h]
    exact List.mem_map_of_mem hp
  obtain ⟨name, _, hname⟩ := List.mem_map.1 hmem
  exact taken_of_shaped ((proper_start.scan _).files name _ hname)

end Running

theorem split_iff (fails : Text → Option Text) (file : Text) (f : List FilePatch) :
    Split f (splitpatch fails file (fileLines f)).1 ↔ Recognised fails f := by
  have hstart : Ready start := ⟨.inl rfl, rfl⟩
  change Split f (scan (step fails) start (fileLines f)).1.files ↔ _
  constructor
  · rintro ⟨names, hnodup, -, hcontents⟩
    have hlength : names.length = f.length := by simpa using congrArg List.length hcontents
    have htaken := taken_of_contents fails file _ hcontents
    -- the files are as many as the patches, so that none was not created or created twice
    have hsubset : names ⊆ (f.filter fun p => fails p.name = none).map FilePatch.name := by
      intro name hname
      have hsome : (scan (step fails) start (fileLines f)).1.files name ≠ none := by
        have hmem := List.mem_map_of_mem (f := (scan (step fails) start (fileLines f)).1.files) hname
        rw [hcontents] at hmem
        obtain ⟨p, _, hp⟩ := List.mem_map.1 hmem
        rw [← hp]
        simp
      rcases scan_bounded hstart htaken hsome with hbefore | ⟨p, hp, hcreated, rfl⟩
      · exact absurd rfl hbefore
      · exact List.mem_map_of_mem (List.mem_filter.2 ⟨hp, by simp [hcreated]⟩)
    have hsubperm := List.subperm_of_subset hnodup hsubset
    have hle := hsubperm.length_le
    rw [List.length_map, hlength] at hle
    have hfilter : f.filter (fun p => fails p.name = none) = f :=
      List.filter_sublist.eq_of_length_le hle
    rw [hfilter] at hsubperm
    have hperm := hsubperm.perm_of_length_le (by simp [hlength])
    exact {
      sources := fun p hp => (htaken p hp).source
      targets := fun p hp => (htaken p hp).target
      hunks := fun p hp => (htaken p hp).hunks
      names := hperm.nodup_iff.1 hnodup
      created := fun p hp => by simpa using (List.filter_eq_self.1 hfilter) p hp }
  · intro h
    have htaken : ∀ p ∈ f, Taken p := fun p hp => ⟨h.sources p hp, h.targets p hp, h.hunks p hp⟩
    have hfiles := scan_all hstart htaken h.created
    have hown : ∀ p ∈ f, (scan (step fails) start (fileLines f)).1.files p.name = some p.lines := by
      intro p hp
      rw [hfiles]
      exact writeAll_nodup h.names hp
    refine ⟨f.map FilePatch.name, h.names, fun name => ⟨fun hname => ?_, fun hname => ?_⟩, ?_⟩
    · rcases scan_bounded hstart htaken hname with hbefore | ⟨p, hp, _, rfl⟩
      · exact absurd rfl hbefore
      · exact List.mem_map_of_mem hp
    · obtain ⟨p, hp, rfl⟩ := List.mem_map.1 hname
      rw [hown p hp]
      simp
    · rw [List.map_map]
      exact List.map_congr_left hown

def commentRemoved : FilePatch where
  source := ⟨"init.lua.orig".toList, "\t2026-01-01".toList⟩
  target := ⟨"init.lua".toList, "\t2026-01-02".toList⟩
  hunks := .unified [⟨.two 1 2, .one 1, [], [.kept "x = 1".toList, .removed "-- y".toList]⟩]

theorem comment_taken_for_header :
    ¬ Split [commentRemoved] (splitpatch (fun _ => none) "patch-aa".toList (fileLines [commentRemoved])).1 := by
  rintro ⟨names, -, -, hcontents⟩
  have htaken := taken_of_contents _ _ _ hcontents commentRemoved List.mem_cons_self
  have hplain := htaken.hunks _ List.mem_cons_self "-- y".toList (List.mem_cons_of_mem _ List.mem_cons_self)
  revert hplain
  decide

end Mports.PatchSplit
