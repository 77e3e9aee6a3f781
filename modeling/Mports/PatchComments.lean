import Mports.KeyedWrites
import Mports.LineScans
import Mports.PatchNames
import Mports.PerlText

set_option autoImplicit false

namespace Mports.PatchComments
open ShellText PatchNames LineScans KeyedWrites

abbrev Line := List Char

/-- A variable of awk with which the lines of a hunk are counted. -/
inductive Count where
  | unset
  | text (field : Text)
  | number (n : ℤ)

/-- `value` is the number that awk takes a text for, and `isZero` what it says when it compares a
field with 0. A number that is not whole is never counted down to 0: here it is below 0. -/
structure Awk where
  value : Text → ℤ
  isZero : Text → Bool
  value_digits : ∀ digits : Text, digits ≠ [] → digits.all Char.isDigit →
    value digits = Nat.ofDigitChars 10 digits 0

structure State where
  done : Bool
  x : ℕ
  hunk : Bool
  looking : Bool
  hca : Count
  hcb : Count

/-- `split(text, a, ",")` and `a[n]`. -/
def element (text : Text) (n : ℕ) : Count :=
  match (text.splitOn ',')[n - 1]? with
  | some part => .text part
  | none => .unset

section
variable (awk : Awk)

def Awk.number : Count → ℤ
  | .unset => 0
  | .text field => awk.value field
  | .number n => n

def Awk.nought : Count → Bool
  | .unset => true
  | .text field => awk.isZero field
  | .number n => n = 0

/-- `count--`. -/
def Awk.down (count : Count) : Count := .number (awk.number count - 1)

/-- The part of the program that keeps account of the hunk. Both counts are taken from the
second field; what is made of the third is not read. -/
def account (s : State) (line : Line) : State :=
  if field 1 line = "@@".toList then
    { s with hca := element (field 2 line) 2, hcb := element (field 2 line) 3, hunk := true }
  else if s.hunk then
    let first := (field 1 line).take 1
    let s :=
      if first = ['-'] then { s with hca := awk.down s.hca }
      else if first = ['+'] then { s with hcb := awk.down s.hcb }
      else { s with hca := awk.down s.hca, hcb := awk.down s.hcb }
    if awk.nought s.hca && awk.nought s.hcb then { s with hunk := false } else s
  else s

def unprinted : List Text := ["diff".toList, "index".toList, "+++".toList]

def step (num : ℕ) (s : State) (line : Line) : State × List Line :=
  if s.done then (s, [])
  else
    let s := account awk s line
    if field 1 line = "---".toList then
      ({ s with x := s.x + 1, done := s.x + 1 = num, looking := s.looking || s.x + 2 = num }, [])
    else if !s.hunk && s.looking && field 1 line ∉ unprinted then (s, [line])
    else (s, [])

def start (num : ℕ) : State where
  done := false
  x := 0
  hunk := false
  looking := num = 1
  hca := .unset
  hcb := .unset

def comment (num : ℕ) (file : List Line) : List Line := (scan (step awk num) (start num) file).2

/-- `grep "^+++ "`. -/
def isTarget (line : Line) : Bool := "+++ ".toList.isPrefixOf line

variable (sh : Shell)

def fname (target : Line) : Text := stdPatchFilename sh .port ((sh.words .port (field 2 target)).headD [])

/-- The files of comments; each line that `grep` finds has its number. -/
def extractCommentFromPatch (file : List Line) (comments : Text → Option (List Line)) : Text → Option (List Line) :=
  writeAll (fun target => fname sh target.1) (fun target => comment awk target.2 file) comments
    ((file.filter isTarget).zipIdx 1)

end

/-- `@@ -a,b +c,d @@` with the lines that it announces. -/
structure Hunk where
  oldStart : Text
  oldCount : Text
  newStart : Text
  newCount : Text
  title : Text
  lines : List Line

def isOld (line : Line) : Bool := line = [] || line.head? = some ' ' || line.head? = some '-'
def isNew (line : Line) : Bool := line = [] || line.head? = some ' ' || line.head? = some '+'

def IsNumeral (text : Text) : Prop := text ≠ [] ∧ text.all Char.isDigit

def Hunk.count (h : Hunk) : ℕ := Nat.ofDigitChars 10 h.oldCount 0

/-- The numbers of lines are those announced; a line with a backslash says that there is no
newline after the line before. -/
structure Hunk.WellFormed (h : Hunk) : Prop where
  numerals : IsNumeral h.oldStart ∧ IsNumeral h.oldCount ∧ IsNumeral h.newStart ∧ IsNumeral h.newCount
  lines : ∀ line ∈ h.lines, isOld line ∨ isNew line ∨ line.head? = some '\\'
  old : h.lines.countP isOld = h.count
  new : h.lines.countP isNew = Nat.ofDigitChars 10 h.newCount 0

def Hunk.header (h : Hunk) : Line :=
  "@@".toList ++ ' ' :: ('-' :: (h.oldStart ++ ',' :: h.oldCount) ++
    ' ' :: ('+' :: (h.newStart ++ ',' :: h.newCount) ++ ' ' :: ("@@".toList ++ h.title)))

/-- The comments before a patch, its two headers and its hunks. -/
structure FilePatch where
  comments : List Line
  old : Text
  new : Text
  hunks : List Hunk
  hunks_nonempty : hunks ≠ []
  hunks_wellFormed : ∀ h ∈ hunks, h.WellFormed
  comments_free : ∀ line ∈ comments, ∀ start ∈ ["---", "+++", "@@", "diff", "index"], ¬ start.toList <+: line

def FilePatch.target (p : FilePatch) : Line := "+++".toList ++ ' ' :: p.new

def FilePatch.lines (p : FilePatch) : List Line :=
  p.comments ++ ("---".toList ++ ' ' :: p.old) :: p.target :: p.hunks.flatMap fun h => h.header :: h.lines

def fileLines (f : List FilePatch) : List Line := f.flatMap FilePatch.lines

def reserved : List Text := "---".toList :: "@@".toList :: unprinted

def isRemoved (line : Line) : Bool := (field 1 line).take 1 = ['-']

/-- The count of old lines is used up by removed lines, which come before all others. -/
def Hunk.Ends (h : Hunk) : Prop := 0 < h.count ∧ ∀ line ∈ h.lines.take h.count, isRemoved line

instance (h : Hunk) : Decidable h.Ends := inferInstanceAs (Decidable (_ ∧ _))

/-- What is left of a hunk when it ends for the program, with the line at which it ends. -/
def Hunk.left (h : Hunk) : List Line :=
  if h.Ends then (h.lines.drop (h.count - 1)).filter fun line => field 1 line ∉ reserved else []

def FilePatch.left (p : FilePatch) : List Line := p.hunks.flatMap Hunk.left

def FilePatch.Ends (p : FilePatch) : Prop := (p.hunks.getLast p.hunks_nonempty).Ends

instance (p : FilePatch) : Decidable p.Ends := inferInstanceAs (Decidable (Hunk.Ends _))

/-- No line of a hunk passes for a header: neither in a patch with another one after it, nor, by
a name that is that of a patch, in the last one. -/
structure Tame (sh : Shell) (f : List FilePatch) : Prop where
  bodies : ∀ p ∈ f.dropLast, ∀ h ∈ p.hunks, ∀ line ∈ h.lines,
    field 1 line ≠ "---".toList ∧ field 1 line ≠ "@@".toList ∧ isTarget line = false
  last : ∀ p ∈ f.getLast?, ∀ h ∈ p.hunks, ∀ line ∈ h.lines, isTarget line →
    ∀ q ∈ f, fname sh line ≠ fname sh q.target

/-- The file of each patch has the comments before it. -/
def Preserved (awk : Awk) (sh : Shell) (f : List FilePatch) (comments : Text → Option (List Line)) : Prop :=
  ∀ p ∈ f, extractCommentFromPatch awk sh (fileLines f) comments (fname sh p.target) = some p.comments

/-- No comment line begins with a field that is looked for; patches of one name have the same
comments; and what is left of a patch, the last hunk of which does not end, are just the comments
that come next. -/
structure Settled (sh : Shell) (f : List FilePatch) : Prop where
  plain : ∀ p ∈ f, ∀ line ∈ p.comments, field 1 line ∉ reserved
  names : ∀ p ∈ f, ∀ q ∈ f, fname sh p.target = fname sh q.target → p.comments = q.comments
  gaps : ∀ before p q after, f = before ++ p :: q :: after → IsLast (fun r => fname sh (FilePatch.target r)) q after →
    ¬ p.Ends ∧ p.left = q.comments

section Reading
variable (awk : Awk) (num : ℕ) {x m : ℕ} {s : State} {line : Line} {lines : List Line} {looking : Bool}

/-- After `x` headers. -/
structure At (s : State) (x : ℕ) (looking : Bool) : Prop where
  done_eq : s.done = false
  x_eq : s.x = x
  looking_eq : s.looking = looking

theorem account_keeps (s : State) (line : Line) : (account awk s line).done = s.done ∧
    (account awk s line).x = s.x ∧ (account awk s line).looking = s.looking := by
  unfold account
  dsimp only
  split_ifs <;> exact ⟨rfl, rfl, rfl⟩

theorem At.account (h : At s x looking) (line : Line) : At (account awk s line) x looking := by
  obtain ⟨hdone, hx, hlooking⟩ := account_keeps awk s line
  exact ⟨hdone.trans h.done_eq, hx.trans h.x_eq, hlooking.trans h.looking_eq⟩

theorem step_other (h : At s x looking) (hline : field 1 line ≠ "---".toList) : step awk num s line =
    (account awk s line, if !(account awk s line).hunk && looking && field 1 line ∉ unprinted then [line] else []) := by
  rw [step, h.done_eq, if_neg Bool.false_ne_true, if_neg hline, (h.account awk line).looking_eq]
  split_ifs <;> rfl

theorem step_header (h : At s x looking) (hline : field 1 line = "---".toList) (hx : x + 1 ≠ num) :
    (step awk num s line).2 = [] ∧ At (step awk num s line).1 (x + 1) (looking || x + 2 = num) := by
  have hafter := h.account awk line
  rw [step, h.done_eq, if_neg Bool.false_ne_true, if_pos hline]
  refine ⟨rfl, ?_, ?_, ?_⟩
  · simpa [hafter.x_eq] using hx
  · simp [hafter.x_eq]
  · simp [hafter.x_eq, hafter.looking_eq]

theorem scan_done (h : s.done = true) : scan (step awk num) s lines = (s, []) := by
  have hstep : ∀ line ∈ lines, step awk num s line = (s, []) := fun line _ => by rw [step, if_pos h]
  rw [scan_steady (step awk num) (fun _ => []) hstep]
  simp

theorem scan_own_header (h : At s x looking) (hline : field 1 line = "---".toList) (hx : x + 1 = num) :
    (scan (step awk num) s (line :: lines)).2 = [] := by
  have hafter := h.account awk line
  have hdone : (step awk num s line).1.done = true ∧ (step awk num s line).2 = [] := by
    rw [step, h.done_eq, if_neg Bool.false_ne_true, if_pos hline]
    exact ⟨by simpa [hafter.x_eq] using hx, rfl⟩
  rw [scan_cons, scan_done awk num hdone.1, hdone.2, List.append_nil]

theorem scan_quiet (h : At s x false) (hlines : ∀ line ∈ lines, field 1 line ≠ "---".toList) :
    (scan (step awk num) s lines).2 = [] ∧ At (scan (step awk num) s lines).1 x false := by
  induction lines generalizing s with
  | nil => exact ⟨rfl, h⟩
  | cons line lines ih =>
    have hline := step_other awk num h (hlines line List.mem_cons_self)
    rw [Bool.and_false, Bool.false_and, if_neg Bool.false_ne_true] at hline
    obtain ⟨hout, hat⟩ := ih (h.account awk line) fun l hl => hlines l (List.mem_cons_of_mem _ hl)
    rw [scan_cons, hline]
    exact ⟨hout, hat⟩

theorem step_closed (h : At s x true) (hheader : field 1 line ≠ "---".toList) (hhunk : field 1 line ≠ "@@".toList)
    (hclosed : (account awk s line).hunk = false) :
    step awk num s line = (account awk s line, [line].filter fun l => field 1 l ∉ reserved) := by
  have hreserved : field 1 line ∈ reserved ↔ field 1 line ∈ unprinted := by
    rw [reserved, List.mem_cons, List.mem_cons, or_iff_right hheader, or_iff_right hhunk]
  rw [step_other awk num h hheader, hclosed, List.filter_cons]
  simp only [hreserved]
  rfl

theorem scan_closed (h : At s x true) (hclosed : s.hunk = false)
    (hlines : ∀ line ∈ lines, field 1 line ≠ "---".toList ∧ field 1 line ≠ "@@".toList) :
    scan (step awk num) s lines = (s, lines.filter fun line => field 1 line ∉ reserved) := by
  have hstep : ∀ line ∈ lines, step awk num s line = (s, [line].filter fun line => field 1 line ∉ reserved) := by
    intro line hline
    obtain ⟨hheader, hhunk⟩ := hlines line hline
    have haccount : account awk s line = s := by rw [account, if_neg hhunk, hclosed, if_neg Bool.false_ne_true]
    have hafter := step_closed awk num h hheader hhunk (by rw [haccount, hclosed])
    rwa [haccount] at hafter
  rw [scan_steady (step awk num) _ hstep, ← List.filter_flatMap, List.flatMap_singleton']

def Below (count : Count) : Prop := ∃ n < 0, count = .number n

/-- The hunk is open, and its counts will never both be 0. -/
structure Stuck (awk : Awk) (s : State) : Prop where
  hunk : s.hunk = true
  counts : Below s.hca ∨ Below s.hcb ∨ (awk.number s.hca = 0 ∧ s.hcb = .unset)

theorem Below.down {awk : Awk} {count : Count} (h : Below count) : Below (awk.down count) := by
  obtain ⟨n, hn, rfl⟩ := h
  exact ⟨n - 1, by omega, rfl⟩

theorem Below.nought {awk : Awk} {count : Count} (h : Below count) : awk.nought count = false := by
  obtain ⟨n, hn, rfl⟩ := h
  exact decide_eq_false (by omega)

theorem Stuck.account {awk : Awk} (h : Stuck awk s) (hline : field 1 line ≠ "@@".toList) :
    Stuck awk (account awk s line) := by
  have hspent : ∀ {count : Count}, awk.number count = 0 → Below (awk.down count) := by
    intro count hcount
    exact ⟨-1, by omega, by rw [Awk.down, hcount]; rfl⟩
  -- whatever is counted, one of the counts is below 0 afterwards
  have hcounts : ∀ t : State, t.hunk = true → Below t.hca ∨ Below t.hcb →
      Stuck awk (if awk.nought t.hca && awk.nought t.hcb then { t with hunk := false } else t) := by
    intro t ht hbelow
    have hnot : (awk.nought t.hca && awk.nought t.hcb) = false := by
      obtain hb | hb := hbelow
      · rw [hb.nought, Bool.false_and]
      · rw [hb.nought, Bool.and_false]
    rw [hnot, if_neg Bool.false_ne_true]
    exact ⟨ht, hbelow.imp_right .inl⟩
  rw [PatchComments.account, if_neg hline, if_pos h.hunk]
  refine hcounts _ ?_ ?_
  · split_ifs <;> exact h.hunk
  · obtain hb | hb | ⟨hzero, hunset⟩ := h.counts
    · split_ifs
      · exact .inl hb.down
      · exact .inl hb
      · exact .inl hb.down
    · split_ifs
      · exact .inr hb
      · exact .inr hb.down
      · exact .inr hb.down
    · have hunused : awk.number s.hcb = 0 := by rw [hunset]; rfl
      split_ifs
      · exact .inl (hspent hzero)
      · exact .inr (hspent hunused)
      · exact .inl (hspent hzero)

theorem scan_stuck {awk : Awk} (num : ℕ) (h : At s x true) (hstuck : Stuck awk s)
    (hlines : ∀ line ∈ lines, field 1 line ≠ "---".toList ∧ field 1 line ≠ "@@".toList) :
    (scan (step awk num) s lines).2 = [] ∧ At (scan (step awk num) s lines).1 x true ∧
      Stuck awk (scan (step awk num) s lines).1 := by
  induction lines generalizing s with
  | nil => exact ⟨rfl, h, hstuck⟩
  | cons line lines ih =>
    obtain ⟨hheader, hhunk⟩ := hlines line List.mem_cons_self
    have hafter := hstuck.account hhunk
    have hline := step_other awk num h hheader
    rw [hafter.hunk, Bool.not_true, Bool.false_and, Bool.false_and, if_neg Bool.false_ne_true] at hline
    rw [scan_cons, hline]
    exact ih (h.account awk line) hafter fun l hl => hlines l (List.mem_cons_of_mem _ hl)

/-- In a hunk of which `m` lines are still to be removed, and all so far were. -/
structure Fresh (awk : Awk) (s : State) (m : ℕ) : Prop where
  hunk : s.hunk = true
  hca_eq : awk.number s.hca = m
  hcb_eq : s.hcb = .unset

theorem Fresh.removed {awk : Awk} (h : Fresh awk s (m + 1)) (hhunk : field 1 line ≠ "@@".toList) (hline : isRemoved line) :
    account awk s line = { s with hca := .number m, hunk := decide (m ≠ 0) } := by
  have hfirst : (field 1 line).take 1 = ['-'] := of_decide_eq_true hline
  have hdown : awk.down s.hca = .number m := by
    rw [Awk.down, h.hca_eq]
    exact congrArg Count.number (by omega)
  have hnought : (awk.nought (.number m) && awk.nought s.hcb) = decide (m = 0) := by
    rw [h.hcb_eq]
    simp [Awk.nought]
  rw [account, if_neg hhunk, if_pos h.hunk]
  dsimp only
  rw [if_pos hfirst, hdown, hnought]
  by_cases hm : m = 0
  · simp [hm]
  · simp [hm, h.hunk]

theorem Fresh.other {awk : Awk} (h : Fresh awk s m) (hhunk : field 1 line ≠ "@@".toList) (hline : ¬ isRemoved line) :
    Stuck awk (account awk s line) := by
  have hfirst : (field 1 line).take 1 ≠ ['-'] := fun heq => hline (decide_eq_true heq)
  have hbelow : Below (awk.down s.hcb) := ⟨-1, by omega, by rw [h.hcb_eq]; rfl⟩
  rw [account, if_neg hhunk, if_pos h.hunk]
  dsimp only
  rw [if_neg hfirst]
  split_ifs with hadded hnought hnought
  · rw [hbelow.nought, Bool.and_false] at hnought
    cases hnought
  · exact ⟨h.hunk, .inr (.inl hbelow)⟩
  · rw [hbelow.nought, Bool.and_false] at hnought
    cases hnought
  · exact ⟨h.hunk, .inr (.inl hbelow)⟩

theorem scan_body {awk : Awk} (num : ℕ) (h : At s x true) (hfresh : Fresh awk s m) (hm : m ≤ lines.length)
    (hlines : ∀ line ∈ lines, field 1 line ≠ "---".toList ∧ field 1 line ≠ "@@".toList) :
    At (scan (step awk num) s lines).1 x true ∧
      if 0 < m ∧ ∀ line ∈ lines.take m, isRemoved line then
        (scan (step awk num) s lines).1.hunk = false ∧
          (scan (step awk num) s lines).2 = (lines.drop (m - 1)).filter fun line => field 1 line ∉ reserved
      else Stuck awk (scan (step awk num) s lines).1 ∧ (scan (step awk num) s lines).2 = [] := by
  induction m generalizing s lines with
  | zero =>
    have hstuck : Stuck awk s := ⟨hfresh.hunk, .inr (.inr ⟨hfresh.hca_eq, hfresh.hcb_eq⟩)⟩
    obtain ⟨hout, hat, hend⟩ := scan_stuck num h hstuck hlines
    rw [if_neg fun hends => absurd hends.1 (Nat.lt_irrefl 0)]
    exact ⟨hat, hend, hout⟩
  | succ m ih =>
    obtain _ | ⟨line, lines⟩ := lines
    · cases hm
    obtain ⟨hheader, hhunk⟩ := hlines line List.mem_cons_self
    have hrest := fun l hl => hlines l (List.mem_cons_of_mem line hl)
    have hline := step_other awk num h hheader
    by_cases hremoved : isRemoved line
    · have haccount := hfresh.removed hhunk hremoved
      have htake : (0 < m + 1 ∧ ∀ l ∈ (line :: lines).take (m + 1), isRemoved l) ↔ ∀ l ∈ lines.take m, isRemoved l := by
        rw [List.take_succ_cons, List.forall_mem_cons, and_iff_right m.succ_pos, and_iff_right hremoved]
      rw [if_congr htake rfl rfl, scan_cons]
      cases m with
      | zero =>
        -- the line at which the hunk ends is printed itself
        have hclosed : (account awk s line).hunk = false := by rw [haccount]; rfl
        have hstep := step_closed awk num h hheader hhunk hclosed
        rw [hstep, scan_closed awk num (h.account awk line) hclosed hrest]
        refine ⟨h.account awk line, ?_⟩
        rw [if_pos nofun, ← List.filter_append]
        exact ⟨hclosed, rfl⟩
      | succ m =>
        have hopen : (account awk s line).hunk = true := by rw [haccount]; rfl
        have hfresh' : Fresh awk (account awk s line) (m + 1) := by
          rw [haccount]
          exact ⟨rfl, rfl, hfresh.hcb_eq⟩
        obtain ⟨hat, hbody⟩ := ih (h.account awk line) hfresh' (Nat.le_of_succ_le_succ hm) hrest
        rw [if_congr (and_iff_right m.succ_pos) rfl rfl] at hbody
        rw [hopen, Bool.not_true, Bool.false_and, Bool.false_and, if_neg Bool.false_ne_true] at hline
        rw [hline]
        exact ⟨hat, hbody⟩
    · have hstuck := hfresh.other hhunk hremoved
      rw [hstuck.hunk, Bool.not_true, Bool.false_and, Bool.false_and, if_neg Bool.false_ne_true] at hline
      obtain ⟨hout, hat, hend⟩ := scan_stuck num (h.account awk line) hstuck hrest
      rw [if_neg fun hends => hremoved (hends.2 line List.mem_cons_self), scan_cons, hline]
      exact ⟨hat, hend, hout⟩

end Reading

section Headers

theorem field_first {w rest : Text} (hw : ∀ c ∈ w, isBlank c = false) (hne : w ≠ []) : field 1 (w ++ ' ' :: rest) = w := by
  rw [field, fields_word hw hne rfl]
  rfl

theorem field_second {v w rest : Text} (hv : ∀ c ∈ v, isBlank c = false) (hv' : v ≠ [])
    (hw : ∀ c ∈ w, isBlank c = false) (hw' : w ≠ []) : field 2 (v ++ ' ' :: (w ++ ' ' :: rest)) = w := by
  rw [field, fields_word hv hv' rfl, fields_word hw hw' rfl]
  rfl

theorem not_mem_digits {text : Text} (h : IsNumeral text) {c : Char} (hc : c.isDigit = false) : c ∉ text := by
  intro hmem
  have hdigit := List.all_eq_true.1 h.2 c hmem
  rw [hc] at hdigit
  cases hdigit

theorem element_counts {a b : Text} (ha : ',' ∉ a) (hb : ',' ∉ b) :
    element (a ++ ',' :: b) 2 = .text b ∧ element (a ++ ',' :: b) 3 = .unset := by
  unfold element
  rw [List.splitOn_append_cons_self_of_not_mem ha, List.splitOn_eq_singleton hb]
  exact ⟨rfl, rfl⟩

variable {h : Hunk}

theorem header_first (h : Hunk) : field 1 h.header = "@@".toList :=
  field_first (List.forall_iff_forall_mem.1 (by decide)) (by decide)

theorem header_second (hwf : h.WellFormed) : field 2 h.header = '-' :: (h.oldStart ++ ',' :: h.oldCount) := by
  refine field_second (List.forall_iff_forall_mem.1 (by decide)) (by decide) ?_ nofun
  have hblank : ∀ {text : Text}, IsNumeral text → ∀ c ∈ text, isBlank c = false :=
    fun htext c hc => blank_of_digit (List.all_eq_true.1 htext.2 c hc)
  intro c hc
  simp only [List.mem_cons, List.mem_append] at hc
  obtain rfl | hc | rfl | hc := hc
  · rfl
  · exact hblank hwf.numerals.1 c hc
  · rfl
  · exact hblank hwf.numerals.2.1 c hc

theorem account_header (awk : Awk) (s : State) (hwf : h.WellFormed) : Fresh awk (account awk s h.header) h.count := by
  obtain ⟨holdStart, holdCount, -⟩ := hwf.numerals
  have hcounts : element (field 2 h.header) 2 = .text h.oldCount ∧ element (field 2 h.header) 3 = .unset := by
    rw [header_second hwf]
    refine element_counts (a := '-' :: h.oldStart) ?_ (not_mem_digits holdCount (by decide))
    rw [List.mem_cons, not_or]
    exact ⟨by decide, not_mem_digits holdStart (by decide)⟩
  rw [account, if_pos (header_first h), hcounts.1, hcounts.2]
  exact ⟨rfl, awk.value_digits _ holdCount.1 holdCount.2, rfl⟩

end Headers

section Segments
variable (awk : Awk) (num : ℕ) {x : ℕ} {looking : Bool} {s : State} {p q : FilePatch}

abbrev Hunk.text (h : Hunk) : List Line := h.header :: h.lines

def Hunk.Headless (h : Hunk) : Prop := ∀ line ∈ h.lines, field 1 line ≠ "---".toList ∧ field 1 line ≠ "@@".toList

theorem text_headless {h : Hunk} (hheadless : h.Headless) : ∀ line ∈ h.text, field 1 line ≠ "---".toList := by
  refine List.forall_mem_cons.2 ⟨?_, fun line hline => (hheadless line hline).1⟩
  rw [header_first]
  decide

theorem scan_hunk {h : Hunk} (hat : At s x true) (hwf : h.WellFormed) (hheadless : h.Headless) :
    (scan (step awk num) s h.text).2 = h.left ∧ At (scan (step awk num) s h.text).1 x true ∧
      if h.Ends then (scan (step awk num) s h.text).1.hunk = false else Stuck awk (scan (step awk num) s h.text).1 := by
  have hfirst := header_first h
  have hfresh := account_header awk s hwf
  have hother : field 1 h.header ≠ "---".toList := by
    rw [hfirst]
    decide
  have hheader := step_other awk num hat hother
  rw [hfresh.hunk, Bool.not_true, Bool.false_and, Bool.false_and, if_neg Bool.false_ne_true] at hheader
  have hcount : h.count ≤ h.lines.length := by
    rw [← hwf.old]
    exact List.countP_le_length
  obtain ⟨hafter, hbody⟩ := scan_body num (hat.account awk h.header) hfresh hcount hheadless
  rw [scan_cons, hheader, Hunk.left]
  by_cases hends : h.Ends
  · rw [if_pos (show 0 < h.count ∧ _ from hends)] at hbody
    rw [if_pos hends, if_pos hends]
    exact ⟨hbody.2, hafter, hbody.1⟩
  · rw [if_neg (show ¬ (0 < h.count ∧ _) from hends)] at hbody
    rw [if_neg hends, if_neg hends]
    exact ⟨hbody.2, hafter, hbody.1⟩

theorem scan_hunks {hunks : List Hunk} (hat : At s x true) (hhunks : ∀ h ∈ hunks, h.WellFormed ∧ h.Headless) :
    (scan (step awk num) s (hunks.flatMap Hunk.text)).2 = hunks.flatMap Hunk.left ∧
      At (scan (step awk num) s (hunks.flatMap Hunk.text)).1 x true := by
  induction hunks generalizing s with
  | nil => exact ⟨rfl, hat⟩
  | cons h hunks ih =>
    obtain ⟨hwf, hheadless⟩ := hhunks h List.mem_cons_self
    obtain ⟨hout, hafter, -⟩ := scan_hunk awk num hat hwf hheadless
    obtain ⟨hrest, hend⟩ := ih hafter fun g hg => hhunks g (List.mem_cons_of_mem _ hg)
    rw [List.flatMap_cons, List.flatMap_cons, scan_append, hout, hrest]
    exact ⟨rfl, hend⟩

theorem scan_last {hunks : List Hunk} (hat : At s x true) (hhunks : ∀ h ∈ hunks, h.WellFormed ∧ h.Headless)
    (hne : hunks ≠ []) :
    if (hunks.getLast hne).Ends then (scan (step awk num) s (hunks.flatMap Hunk.text)).1.hunk = false
    else Stuck awk (scan (step awk num) s (hunks.flatMap Hunk.text)).1 := by
  obtain ⟨hwf, hheadless⟩ := hhunks _ (List.getLast_mem hne)
  have hbefore := (scan_hunks awk num hat
    fun h hh => hhunks h ((List.dropLast_sublist hunks).subset hh)).2
  have hlast := (scan_hunk awk num hbefore hwf hheadless).2.2
  have hsplit : hunks.flatMap Hunk.text = hunks.dropLast.flatMap Hunk.text ++ (hunks.getLast hne).text := by
    conv_lhs => rw [← List.dropLast_append_getLast hne, List.flatMap_append, List.flatMap_singleton]
  rw [hsplit, scan_append]
  exact hlast

theorem target_first (p : FilePatch) : field 1 p.target = "+++".toList :=
  field_first (List.forall_iff_forall_mem.1 (by decide)) (by decide)

/-- Comments and hunks have no header; the one of the patch comes between them. -/
structure FilePatch.Headless (p : FilePatch) : Prop where
  comments : ∀ line ∈ p.comments, field 1 line ∉ reserved
  hunks : ∀ h ∈ p.hunks, h.Headless

theorem comment_free {comments : List Line} (h : ∀ line ∈ comments, field 1 line ∉ reserved) :
    ∀ line ∈ comments, field 1 line ≠ "---".toList ∧ field 1 line ≠ "@@".toList := by
  intro line hline
  have hnot := h line hline
  rw [reserved, List.mem_cons, List.mem_cons, not_or, not_or] at hnot
  exact ⟨hnot.1, hnot.2.1⟩

def FilePatch.header (p : FilePatch) : Line := "---".toList ++ ' ' :: p.old

theorem patch_header (p : FilePatch) : field 1 p.header = "---".toList :=
  field_first (List.forall_iff_forall_mem.1 (by decide)) (by decide)

theorem scan_patch (h : p.Headless) (hat : At s x false) (hx : x + 2 < num) :
    (scan (step awk num) s p.lines).2 = [] ∧ At (scan (step awk num) s p.lines).1 (x + 1) false := by
  obtain ⟨hout, hcomments⟩ := scan_quiet awk num hat fun line hline => (comment_free h.comments line hline).1
  obtain ⟨hnone, hheader⟩ := step_header awk num hcomments (patch_header p) (by omega)
  rw [Bool.false_or, decide_eq_false (by omega)] at hheader
  have hrest : ∀ line ∈ p.target :: p.hunks.flatMap Hunk.text, field 1 line ≠ "---".toList := by
    refine List.forall_mem_cons.2 ⟨?_, fun line hline => ?_⟩
    · rw [target_first]
      decide
    · obtain ⟨g, hg, hline⟩ := List.mem_flatMap.1 hline
      exact text_headless (h.hunks g hg) line hline
  obtain ⟨hafter, hend⟩ := scan_quiet awk num hheader hrest
  rw [FilePatch.lines, scan_append, scan_cons]
  refine ⟨?_, hend⟩
  change _ ++ ((step awk num _ p.header).2 ++ _) = []
  rw [hout, hnone]
  exact hafter

theorem scan_patches {before : List FilePatch} (h : ∀ p ∈ before, p.Headless) (hat : At s x false)
    (hx : x + before.length + 1 < num) :
    (scan (step awk num) s (fileLines before)).2 = [] ∧
      At (scan (step awk num) s (fileLines before)).1 (x + before.length) false := by
  induction before generalizing s x with
  | nil => exact ⟨rfl, hat⟩
  | cons p before ih =>
    rw [List.length_cons] at hx
    obtain ⟨hout, hafter⟩ := scan_patch awk num (h p List.mem_cons_self) hat (by omega)
    obtain ⟨hrest, hend⟩ := ih (fun q hq => h q (List.mem_cons_of_mem _ hq)) hafter (by omega)
    rw [fileLines, List.flatMap_cons, scan_append, hout]
    rw [List.length_cons, ← Nat.add_assoc, Nat.add_right_comm]
    exact ⟨hrest, hend⟩

theorem step_target (hat : At s x looking) (p : FilePatch) :
    step awk num s p.target = (account awk s p.target, []) := by
  have hmem : field 1 p.target ∈ unprinted := by
    rw [target_first]
    decide
  rw [step_other awk num hat (by rw [target_first]; decide), decide_eq_false (not_not_intro hmem), Bool.and_false,
    if_neg Bool.false_ne_true]

theorem scan_before (h : ∀ line ∈ q.comments, field 1 line ≠ "---".toList ∧ field 1 line ≠ "@@".toList)
    (hat : At s x true) (hx : x + 1 = num) (rest : List Line) :
    (s.hunk = false → (scan (step awk num) s (q.lines ++ rest)).2 = q.comments.filter fun line => field 1 line ∉ reserved) ∧
      (Stuck awk s → (scan (step awk num) s (q.lines ++ rest)).2 = []) := by
  have hlines : q.lines ++ rest = q.comments ++ q.header :: (q.target :: q.hunks.flatMap Hunk.text ++ rest) := by
    rw [FilePatch.lines, List.append_assoc]
    rfl
  rw [hlines, scan_append]
  refine ⟨fun hclosed => ?_, fun hstuck => ?_⟩
  · rw [scan_closed awk num hat hclosed h]
    dsimp only
    rw [scan_own_header awk num hat (patch_header q) hx, List.append_nil]
  · obtain ⟨hout, hafter, -⟩ := scan_stuck num hat hstuck h
    rw [hout, scan_own_header awk num hafter (patch_header q) hx, List.append_nil]

/-- From the patch before its own on, what is left of that patch is printed, and the comments
after it where its last hunk has ended. -/
theorem scan_pair (hp : p.Headless) (hwf : ∀ h ∈ p.hunks, h.WellFormed)
    (hq : ∀ line ∈ q.comments, field 1 line ∉ reserved) (hat : At s x false) (hx : x + 2 = num) (rest : List Line) :
    (scan (step awk num) s (p.lines ++ (q.lines ++ rest))).2 = p.left ++ if p.Ends then q.comments else [] := by
  obtain ⟨hnone, hcomments⟩ := scan_quiet awk num hat fun line hline => (comment_free hp.comments line hline).1
  obtain ⟨hheader, hlooking⟩ := step_header awk num hcomments (patch_header p) (by omega)
  rw [Bool.false_or, decide_eq_true hx] at hlooking
  have htarget := step_target awk num hlooking p
  have hstart := hlooking.account awk p.target
  have hlines : p.lines ++ (q.lines ++ rest) =
      p.comments ++ p.header :: p.target :: (p.hunks.flatMap Hunk.text ++ (q.lines ++ rest)) := by
    rw [FilePatch.lines, List.append_assoc]
    rfl
  rw [hlines, scan_append, scan_cons, scan_cons, htarget, hnone, hheader, List.nil_append, List.nil_append, List.nil_append,
    scan_append]
  generalize account awk (step awk num (scan (step awk num) s p.comments).1 p.header).1 p.target = t at hstart
  have hhunks : ∀ h ∈ p.hunks, h.WellFormed ∧ h.Headless := fun h hh => ⟨hwf h hh, hp.hunks h hh⟩
  obtain ⟨hleft, hafter⟩ := scan_hunks awk num hstart hhunks
  have hend := scan_last awk num hstart hhunks p.hunks_nonempty
  obtain ⟨hopen, hstuck⟩ := scan_before awk num (comment_free hq) hafter (by omega) rest
  rw [hleft]
  by_cases hends : p.Ends
  · rw [if_pos (show (p.hunks.getLast p.hunks_nonempty).Ends from hends)] at hend
    rw [if_pos hends, hopen hend, List.filter_eq_self.2 fun line hline => decide_eq_true (hq line hline)]
    rfl
  · rw [if_neg (show ¬ (p.hunks.getLast p.hunks_nonempty).Ends from hends)] at hend
    rw [if_neg hends, hstuck hend]
    rfl

theorem comment_first (hq : ∀ line ∈ q.comments, field 1 line ∉ reserved) (after : List FilePatch) :
    comment awk 1 (fileLines (q :: after)) = q.comments := by
  have hat : At (start 1) 0 true := ⟨rfl, rfl, rfl⟩
  have hout := (scan_before awk 1 (comment_free hq) hat rfl (fileLines after)).1 rfl
  rw [List.filter_eq_self.2 fun line hline => decide_eq_true (hq line hline)] at hout
  exact hout

theorem comment_later {before : List FilePatch} (hbefore : ∀ r ∈ before, r.Headless) (hp : p.Headless)
    (hq : ∀ line ∈ q.comments, field 1 line ∉ reserved) (after : List FilePatch) :
    comment awk (before.length + 2) (fileLines (before ++ p :: q :: after)) =
      p.left ++ if p.Ends then q.comments else [] := by
  have hlooking : (start (before.length + 2)).looking = false := by simp [start]
  have hat : At (start (before.length + 2)) 0 false := ⟨rfl, rfl, hlooking⟩
  obtain ⟨hout, hend⟩ := scan_patches awk (before.length + 2) hbefore hat (by omega)
  have hpair := scan_pair awk (before.length + 2) hp p.hunks_wellFormed hq hend (by omega) (fileLines after)
  have hlines : fileLines (before ++ p :: q :: after) = fileLines before ++ (p.lines ++ (q.lines ++ fileLines after)) := by
    rw [fileLines, List.flatMap_append]
    rfl
  rw [comment, hlines, scan_append]
  dsimp only
  rw [hout, hpair]
  rfl

end Segments

section Names
variable {awk : Awk} {sh : Shell} {f : List FilePatch} {comments : Text → Option (List Line)}

/-- The lines of hunks that `grep` finds. -/
def FilePatch.extras (p : FilePatch) : List Line := p.hunks.flatMap fun h => h.lines.filter isTarget

theorem filter_lines (p : FilePatch) : p.lines.filter isTarget = p.target :: p.extras := by
  have hcomments : p.comments.filter isTarget = [] := by
    refine List.filter_eq_nil_iff.2 fun line hline htarget => ?_
    have hstart : "+++ ".toList <+: line := List.isPrefixOf_iff_prefix.1 htarget
    exact p.comments_free line hline "+++" (by decide) ((List.prefix_append "+++".toList [' ']).trans hstart)
  have hhunks : (p.hunks.flatMap Hunk.text).filter isTarget = p.extras := by
    rw [List.filter_flatMap]
    exact List.flatMap_congr fun h _ => List.filter_cons_of_neg (by exact Bool.false_ne_true)
  rw [FilePatch.lines, List.filter_append, hcomments, List.nil_append,
    List.filter_cons_of_neg (by exact Bool.false_ne_true), List.filter_cons_of_pos rfl]
  exact congrArg _ hhunks

theorem extras_nil {p : FilePatch} (h : ∀ g ∈ p.hunks, ∀ line ∈ g.lines, isTarget line = false) : p.extras = [] := by
  refine List.flatMap_eq_nil_iff.2 fun g hg => List.filter_eq_nil_iff.2 fun line hline => ?_
  rw [h g hg line hline]
  exact Bool.false_ne_true

theorem filter_file (h : Tame sh f) : ∃ extras, (fileLines f).filter isTarget = f.map FilePatch.target ++ extras ∧
    ∀ line ∈ extras, ∀ q ∈ f, fname sh line ≠ fname sh q.target := by
  obtain rfl | ⟨init, p, rfl⟩ := List.eq_nil_or_concat f
  · exact ⟨[], rfl, nofun⟩
  rw [List.concat_eq_append] at h ⊢
  have hbodies := h.bodies
  rw [List.dropLast_concat] at hbodies
  have hinit : (fileLines init).filter isTarget = init.map FilePatch.target := by
    rw [fileLines, List.filter_flatMap, List.map_eq_flatMap]
    refine List.flatMap_congr fun r hr => ?_
    rw [filter_lines, extras_nil fun g hg line hline => (hbodies r hr g hg line hline).2.2]
  refine ⟨p.extras, ?_, fun line hline q hq => ?_⟩
  · have hfile : fileLines (init ++ [p]) = fileLines init ++ p.lines := by simp [fileLines]
    rw [hfile, List.filter_append, hinit, filter_lines, List.map_append, List.append_assoc]
    rfl
  · obtain ⟨g, hg, hmem⟩ := List.mem_flatMap.1 hline
    obtain ⟨hin, htarget⟩ := List.mem_filter.1 hmem
    exact h.last p (by simp) g hg line hin htarget q hq

theorem stored_last (h : Tame sh f) {before after : List FilePatch} {p : FilePatch} (hsplit : f = before ++ p :: after)
    (hlast : IsLast (fun r => fname sh (FilePatch.target r)) p after) :
    extractCommentFromPatch awk sh (fileLines f) comments (fname sh p.target) =
      some (comment awk (before.length + 1) (fileLines f)) := by
  obtain ⟨extras, hfilter, hextras⟩ := filter_file h
  have hnumbered : ((fileLines f).filter isTarget).zipIdx 1 = (before.map FilePatch.target).zipIdx 1 ++
      (p.target, before.length + 1) :: (after.map FilePatch.target ++ extras).zipIdx (before.length + 2) := by
    rw [hfilter, hsplit, List.map_append, List.append_assoc, List.zipIdx_append, List.length_map, Nat.add_comm 1]
    rfl
  rw [extractCommentFromPatch, hnumbered]
  refine writeAll_last (i := (p.target, before.length + 1)) fun j hj => ?_
  obtain hj | hj := List.mem_append.1 (List.fst_mem_of_mem_zipIdx hj)
  · obtain ⟨r, hr, heq⟩ := List.mem_map.1 hj
    rw [← heq]
    exact hlast r hr
  · exact hextras j.1 hj p (by rw [hsplit]; simp)

theorem comment_plain (awk : Awk) (num : ℕ) (file : List Line) :
    ∀ line ∈ comment awk num file, field 1 line ∉ reserved := by
  refine scan_forall _ (fun s line => ?_) _ _
  unfold step
  dsimp only
  split_ifs with hdone hheader hprint
  · exact nofun
  · exact nofun
  · refine List.forall_mem_singleton.2 ?_
    simp only [Bool.and_eq_true, Bool.not_eq_true', decide_eq_true_eq] at hprint
    rw [reserved, List.mem_cons, List.mem_cons, not_or, not_or]
    refine ⟨hheader, fun hhunk => ?_, hprint.2⟩
    have hopen : (account awk s line).hunk = true := by rw [account, if_pos hhunk]
    rw [hprint.1.1] at hopen
    cases hopen
  · exact nofun

theorem left_ne_nil {h : Hunk} (hwf : h.WellFormed) (hheadless : h.Headless) (hends : h.Ends) : h.left ≠ [] := by
  have hcount : h.count ≤ h.lines.length := by
    rw [← hwf.old]
    exact List.countP_le_length
  have hlt : h.count - 1 < h.lines.length := by
    have hpos := hends.1
    omega
  have hmem : h.lines[h.count - 1] ∈ h.lines.take h.count :=
    List.mem_take_iff_getElem.2 ⟨h.count - 1, by have hpos := hends.1; omega, rfl⟩
  have hremoved : (field 1 h.lines[h.count - 1]).take 1 = ['-'] := of_decide_eq_true (hends.2 _ hmem)
  have hfree : field 1 h.lines[h.count - 1] ∉ reserved := by
    intro hreserved
    simp only [reserved, unprinted, List.mem_cons, List.not_mem_nil, or_false] at hreserved
    obtain heq | heq | heq | heq | heq := hreserved
    · exact (hheadless _ (List.getElem_mem hlt)).1 heq
    all_goals
      rw [heq] at hremoved
      exact absurd hremoved (by decide)
  rw [Hunk.left, if_pos hends, List.drop_eq_getElem_cons hlt, List.filter_cons, if_pos (decide_eq_true hfree)]
  exact nofun

theorem patch_left_ne_nil {p : FilePatch} (hp : p.Headless) (hends : p.Ends) : p.left ≠ [] := by
  intro hnil
  have hlast := List.getLast_mem p.hunks_nonempty
  exact left_ne_nil (p.hunks_wellFormed _ hlast) (hp.hunks _ hlast) hends (List.flatMap_eq_nil_iff.1 hnil _ hlast)

theorem Tame.headless (h : Tame sh f) (hplain : ∀ p ∈ f, ∀ line ∈ p.comments, field 1 line ∉ reserved)
    {before after : List FilePatch} {q : FilePatch} (hsplit : f = before ++ q :: after) : ∀ p ∈ before, p.Headless := by
  intro p hp
  have hdrop : p ∈ f.dropLast := by
    rw [hsplit, List.dropLast_append_of_ne_nil (List.cons_ne_nil _ _)]
    exact List.mem_append_left _ hp
  refine ⟨hplain p (by rw [hsplit]; exact List.mem_append_left _ hp), fun g hg line hline => ?_⟩
  obtain ⟨hheader, hhunk, -⟩ := h.bodies p hdrop g hg line hline
  exact ⟨hheader, hhunk⟩

theorem comment_pair (awk : Awk) (h : Tame sh f) (hplain : ∀ p ∈ f, ∀ line ∈ p.comments, field 1 line ∉ reserved)
    {before after : List FilePatch} {p q : FilePatch} (hsplit : f = before ++ p :: q :: after) :
    p.Headless ∧ comment awk (before.length + 2) (fileLines f) = p.left ++ if p.Ends then q.comments else [] := by
  have hpairs : f = (before ++ [p]) ++ q :: after := by rw [hsplit, List.append_assoc]; rfl
  have hheadless := h.headless hplain hpairs
  have hp := hheadless p (by simp)
  have hq := hplain q (by rw [hsplit]; simp)
  rw [hsplit]
  exact ⟨hp, comment_later awk (fun r hr => hheadless r (List.mem_append_left _ hr)) hp hq after⟩

/-- Where no line of a hunk passes for a header, all comments are preserved just where they stand
before the first patch, or are what is left of the patch before theirs. -/
theorem preserved_iff (h : Tame sh f) : Preserved awk sh f comments ↔ Settled sh f := by
  constructor
  · intro hpreserved
    have hstored : ∀ before q after, f = before ++ q :: after →
        IsLast (fun r => fname sh (FilePatch.target r)) q after →
        comment awk (before.length + 1) (fileLines f) = q.comments := by
      intro before q after hsplit hlast
      have hq := hpreserved q (by rw [hsplit]; simp)
      rw [stored_last h hsplit hlast] at hq
      exact Option.some.inj hq
    have hnames : ∀ p ∈ f, ∀ q ∈ f, fname sh p.target = fname sh q.target → p.comments = q.comments := by
      intro p hp q hq hname
      exact Option.some.inj ((hpreserved p hp).symm.trans ((congrArg _ hname).trans (hpreserved q hq)))
    have hplain : ∀ p ∈ f, ∀ line ∈ p.comments, field 1 line ∉ reserved := by
      intro p hp
      obtain ⟨before, q, after, hsplit, hname, hlast⟩ := exists_last (fun r => fname sh (FilePatch.target r)) hp
      rw [hnames p hp q (by rw [hsplit]; simp) hname.symm, ← hstored before q after hsplit hlast]
      exact comment_plain awk _ _
    refine ⟨hplain, hnames, fun before p q after hsplit hlast => ?_⟩
    obtain ⟨hp, hpair⟩ := comment_pair awk h hplain hsplit
    have hq := hstored (before ++ [p]) q after (by rw [hsplit, List.append_assoc]; rfl) hlast
    rw [List.length_append, List.length_singleton, hpair] at hq
    by_cases hends : p.Ends
    · rw [if_pos hends] at hq
      exact absurd (List.append_left_eq_self.1 hq) (patch_left_ne_nil hp hends)
    · rw [if_neg hends, List.append_nil] at hq
      exact ⟨hends, hq⟩
  · intro hsettled p hp
    obtain ⟨before, q, after, hsplit, hname, hlast⟩ := exists_last (fun r => fname sh (FilePatch.target r)) hp
    have hq : q ∈ f := by rw [hsplit]; simp
    rw [hsettled.names p hp q hq hname.symm, ← hname, stored_last h hsplit hlast]
    obtain rfl | ⟨init, r, rfl⟩ := List.eq_nil_or_concat before
    · rw [hsplit]
      exact congrArg some (comment_first awk (hsettled.plain q hq) after)
    · rw [List.concat_eq_append, List.append_assoc] at hsplit
      obtain ⟨-, hpair⟩ := comment_pair awk h hsettled.plain hsplit
      obtain ⟨hopen, hleft⟩ := hsettled.gaps init r q after hsplit hlast
      rw [if_neg hopen, List.append_nil, hleft] at hpair
      rw [List.length_concat]
      exact congrArg some hpair

def digitsAwk : Awk where
  value text := if text.all Char.isDigit then Nat.ofDigitChars 10 text 0 else -1
  isZero text := text ≠ [] && text.all Char.isDigit && Nat.ofDigitChars 10 text 0 = 0
  value_digits _ _ h := if_pos h

def shortened : Hunk where
  oldStart := ['1']
  oldCount := ['2']
  newStart := ['1']
  newCount := ['1']
  title := []
  lines := [" kept".toList, "-gone".toList]

theorem shortened_wellFormed : shortened.WellFormed where
  numerals := ⟨⟨nofun, rfl⟩, ⟨nofun, rfl⟩, ⟨nofun, rfl⟩, nofun, rfl⟩
  lines := List.forall_iff_forall_mem.1 ⟨.inl rfl, .inl rfl⟩
  old := rfl
  new := rfl

def patchOf (name : Char) (comments : List Line) (h : comments = [] ∨ comments = ["Why.".toList]) : FilePatch where
  comments := comments
  old := [name, '.', 'o', 'r', 'i', 'g']
  new := [name]
  hunks := [shortened]
  hunks_nonempty := nofun
  hunks_wellFormed := List.forall_mem_singleton.2 shortened_wellFormed
  comments_free := by
    obtain rfl | rfl := h
    · exact nofun
    · exact List.forall_mem_singleton.2 (List.forall_iff_forall_mem.1 (by decide))

theorem second_comment_lost : ¬ Preserved digitsAwk plainShell
    [patchOf 'a' [] (.inl rfl), patchOf 'b' ["Why.".toList] (.inr rfl)] fun _ => none := by
  intro h
  have hlost : extractCommentFromPatch digitsAwk plainShell
      (fileLines [patchOf 'a' [] (.inl rfl), patchOf 'b' ["Why.".toList] (.inr rfl)]) (fun _ => none)
      (fname plainShell "+++ b".toList) = some [] := by decide +kernel
  have hsecond := hlost.symm.trans (h (patchOf 'b' ["Why.".toList] (.inr rfl)) (by simp))
  exact absurd (Option.some.inj hsecond) nofun

theorem first_comment_kept : Preserved digitsAwk plainShell
    [patchOf 'a' ["Why.".toList] (.inr rfl), patchOf 'b' [] (.inl rfl)] fun _ => none := by
  have htame : Tame plainShell [patchOf 'a' ["Why.".toList] (.inr rfl), patchOf 'b' [] (.inl rfl)] := by
    refine ⟨List.forall_mem_singleton.2 (List.forall_mem_singleton.2 ?_), fun p hp => ?_⟩
    · exact List.forall_iff_forall_mem.1 (by decide)
    · obtain rfl : patchOf 'b' [] (.inl rfl) = p := Option.some.inj hp
      exact List.forall_mem_singleton.2 (List.forall_iff_forall_mem.1 ⟨nofun, nofun⟩)
  refine (preserved_iff htame).2 ⟨?_, ?_, ?_⟩
  · refine List.forall_mem_cons.2 ⟨List.forall_mem_singleton.2 (by decide), List.forall_mem_singleton.2 nofun⟩
  · intro p hp q hq hname
    simp only [List.mem_cons, List.not_mem_nil, or_false] at hp hq
    obtain rfl | rfl := hp <;> obtain rfl | rfl := hq
    · rfl
    · exact absurd hname (by decide +kernel)
    · exact absurd hname (by decide +kernel)
    · rfl
  · intro before p q after hsplit hlast
    have hlength := congrArg List.length hsplit
    rw [List.length_append] at hlength
    simp only [List.length_cons, List.length_nil] at hlength
    obtain rfl : before = [] := List.length_eq_zero_iff.1 (by omega)
    obtain ⟨hp, hrest⟩ := List.cons.inj hsplit
    obtain ⟨hq, -⟩ := List.cons.inj hrest
    rw [← hp, ← hq]
    exact ⟨by decide, by decide⟩

end Names

end Mports.PatchComments
