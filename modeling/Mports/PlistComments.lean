import Mports.PlistParser
import Mathlib.Data.List.Induction

set_option autoImplicit false

namespace Mports.PlistComments
open PlistParser

/-- `@comment` lines; a blank line is none, whatever `isComment` says. -/
def Commented (line : List Char) : Prop := "@comment ".toList <+: line

instance (line : List Char) : Decidable (Commented line) := inferInstanceAs (Decidable (_ <+: line))

def body (line : List Char) : List Char := stripPerms (afterComment line)

/-- What the script remembers of the lines: the directory of the last uncommented `@cwd`, the one
that uncommented lines go to, the commented one that the comments of this run go to, and the one
that the next comment will go to. -/
structure Memory where
  dir : List Char
  seen : List Char
  worn : Option (List Char)
  remembered : List Char

def Memory.start (dir : List Char) : Memory := ⟨dir, dir, none, []⟩

/-- A comment takes the remembered directory on; there is nothing to come back to where the
directory of uncommented lines is empty. -/
def Memory.comment (m : Memory) : Memory :=
  if m.remembered = [] then m
  else if m.seen = [] then { m with seen := m.remembered }
  else { m with worn := some m.remembered }

def Memory.plain (m : Memory) : Memory := if m.worn = none then m else { m with worn := none, remembered := [] }

def Memory.next (glob : Glob) (start : List Char) (m : Memory) (line : List Char) : Memory :=
  if isComment line then
    match newCwd glob start (body line) with
    | some dir => { m.comment with remembered := dir }
    | none => m.comment
  else
    match newCwd glob start line with
    | some dir => { m.plain with dir := dir, seen := dir }
    | none => m.plain

def after (glob : Glob) (start : List Char) (lines : List (List Char)) : Memory :=
  lines.foldl (Memory.next glob start) (.start start)

def Memory.commentDir (m : Memory) : List Char := if m.remembered = [] then m.worn.getD m.seen else m.remembered

variable {glob : Glob} {start : List Char}

theorem Memory.plain_worn (m : Memory) : m.plain.worn = none := by
  unfold Memory.plain
  split_ifs with h
  · exact h
  · rfl

theorem Memory.plain_seen (m : Memory) : m.plain.seen = m.seen := by
  unfold Memory.plain
  split_ifs <;> rfl

theorem Memory.plain_dir (m : Memory) : m.plain.dir = m.dir := by
  unfold Memory.plain
  split_ifs <;> rfl

theorem Memory.comment_dir (m : Memory) : m.comment.dir = m.dir := by
  unfold Memory.comment
  split_ifs <;> rfl

theorem Memory.comment_remembered (m : Memory) : m.comment.remembered = m.remembered := by
  unfold Memory.comment
  split_ifs <;> rfl

def printed (glob : Glob) (start : List Char) (m : Memory) (line : List Char) : List Out :=
  if isComment line then
    if newCwd glob start (body line) = none then emit glob true m.commentDir (body line) else []
  else if newCwd glob start line = none then emit glob false m.seen line
  else []

theorem newCwd_commented {line : List Char} (h : Commented line) : newCwd glob start line = none := by
  obtain ⟨rest, rfl⟩ := h
  unfold newCwd
  rw [if_neg (by simp), if_neg (by simp)]

theorem next_dir (m : Memory) (line : List Char) :
    (m.next glob start line).dir = if isComment line then m.dir else (newCwd glob start line).getD m.dir := by
  unfold Memory.next
  split
  · split
    · exact m.comment_dir
    · exact m.comment_dir
  · cases newCwd glob start line with
    | some dir => rfl
    | none => exact m.plain_dir

theorem newCwd_nil : newCwd glob start [] = none := by
  rw [newCwd, if_neg (by simp), if_neg (by simp)]

/-- Each uncommented line is not blank, and prints the same where it goes and where it should go. -/
def Undisturbed (glob : Glob) (start : List Char) (m : Memory) (line : List Char) : Prop :=
  ¬ Commented line → line ≠ [] ∧
    (newCwd glob start line = none → emit glob false m.seen line = emit glob false m.dir line)

theorem isComment_iff (line : List Char) : isComment line = true ↔ line = [] ∨ Commented line := by
  rw [isComment, Bool.or_eq_true, decide_eq_true_iff, List.isPrefixOf_iff_prefix, Commented]

theorem next_dir_ignoring (m : Memory) (line : List Char) :
    (m.next glob start line).dir = (newCwd glob start line).getD m.dir := by
  rw [next_dir]
  split
  · rename_i hcomment
    rcases (isComment_iff line).1 hcomment with rfl | hcommented
    · rw [newCwd_nil, Option.getD_none]
    · rw [newCwd_commented hcommented, Option.getD_none]
  · rfl

theorem forall_split_cons {α : Type} (x : α) (xs : List α) (P : List α → α → List α → Prop) :
    (∀ pre y post, x :: xs = pre ++ y :: post → P pre y post) ↔
      P [] x xs ∧ ∀ pre y post, xs = pre ++ y :: post → P (x :: pre) y post := by
  constructor
  · intro h
    exact ⟨h [] x xs rfl, fun pre y post hxs => h (x :: pre) y post (by rw [hxs]; rfl)⟩
  · rintro ⟨hx, hxs⟩ pre y post h
    cases pre with
    | nil =>
      rw [List.nil_append, List.cons.injEq] at h
      obtain ⟨rfl, rfl⟩ := h
      exact hx
    | cons z pre =>
      rw [List.cons_append, List.cons.injEq] at h
      exact h.1 ▸ hxs pre y post h.2

instance forallSplits {α : Type} (P : List α → α → List α → Prop) [∀ pre x post, Decidable (P pre x post)] :
    (xs : List α) → Decidable (∀ pre x post, xs = pre ++ x :: post → P pre x post)
  | [] => .isTrue fun pre x post h => absurd h (by simp)
  | x :: xs =>
    have : Decidable (∀ pre y post, xs = pre ++ y :: post → P (x :: pre) y post) :=
      forallSplits (fun pre => P (x :: pre)) xs
    decidable_of_iff _ (forall_split_cons x xs P).symm

theorem after_snoc (pre : List (List Char)) (line : List Char) :
    after glob start (pre ++ [line]) = (after glob start pre).next glob start line := by
  rw [after, List.foldl_append, List.foldl_cons, List.foldl_nil, after]

/-- The directory of the last uncommented `@cwd`. -/
def lastCwd (glob : Glob) (start : List Char) (lines : List (List Char)) : List Char :=
  lines.foldl (fun dir line => if Commented line then dir else (newCwd glob start line).getD dir) start

theorem lastCwd_snoc (pre : List (List Char)) (line : List Char) :
    lastCwd glob start (pre ++ [line]) = (newCwd glob start line).getD (lastCwd glob start pre) := by
  rw [lastCwd, List.foldl_append, List.foldl_cons, List.foldl_nil, ← lastCwd]
  split_ifs with hcommented
  · rw [newCwd_commented hcommented, Option.getD_none]
  · rfl

theorem after_dir (pre : List (List Char)) : (after glob start pre).dir = lastCwd glob start pre := by
  induction pre using List.reverseRecOn with
  | nil => rfl
  | append_singleton pre line ih => rw [after_snoc, next_dir_ignoring, lastCwd_snoc, ih]

section Forgetting

/-- A commented `@cwd` of another directory than /. -/
def SetsDir (glob : Glob) (start line : List Char) : Prop :=
  Commented line ∧ ∃ dir, newCwd glob start (body line) = some dir ∧ dir ≠ []

instance (line : List Char) : Decidable (SetsDir glob start line) :=
  decidable_of_iff (Commented line ∧ (newCwd glob start (body line)).any (· ≠ []) = true) (by
    rw [SetsDir, Option.any_eq_true]
    simp)

/-- The lines after a commented `@cwd` make the script forget it: a comment, while the directory of
uncommented lines is not empty, and then a line that is none. -/
structure Forgotten (glob : Glob) (start : List Char) (before after : List (List Char)) : Prop where
  dir : lastCwd glob start before ≠ []
  worn : ∃ line ∈ after.head?, isComment line = true
  dropped : ∃ line ∈ after, isComment line = false

instance (before after : List (List Char)) : Decidable (Forgotten glob start before after) :=
  decidable_of_iff (lastCwd glob start before ≠ [] ∧ after.head?.any isComment = true ∧ after.any (!isComment ·) = true) (by
    rw [Option.any_eq_true, List.any_eq_true]
    exact ⟨fun ⟨h₁, h₂, h₃⟩ => ⟨h₁, h₂, by simpa using h₃⟩, fun ⟨h₁, h₂, h₃⟩ => ⟨h₁, h₂, by simpa using h₃⟩⟩)

def Forgets (glob : Glob) (start : List Char) (lines : List (List Char)) : Prop :=
  ∀ before line after, lines = before ++ line :: after → SetsDir glob start line → Forgotten glob start before after

instance (lines : List (List Char)) : Decidable (Forgets glob start lines) :=
  forallSplits (fun before line after => SetsDir glob start line → Forgotten glob start before after) lines

/-- The run of a commented `@cwd` that may still be forgotten. -/
structure Pending (glob : Glob) (start : List Char) (before after : List (List Char)) : Prop where
  dir : lastCwd glob start before ≠ []
  run : ∀ line ∈ after, isComment line = true

def Orderly (glob : Glob) (start : List Char) (lines : List (List Char)) : Prop :=
  ∀ before line after, lines = before ++ line :: after → SetsDir glob start line →
    Forgotten glob start before after ∨ Pending glob start before after

theorem Orderly.init {pre : List (List Char)} {line : List Char} (h : Orderly glob start (pre ++ [line])) :
    Orderly glob start pre := by
  intro before set after hpre hset
  have hsplit : pre ++ [line] = before ++ set :: (after ++ [line]) := by rw [hpre]; simp
  obtain ⟨hdir, ⟨next, hnext, hworn⟩, dropped, hmem, hdropped⟩ | ⟨hdir, hrun⟩ := h before set _ hsplit hset
  · by_cases hrest : ∀ l ∈ after, isComment l = true
    · exact .inr ⟨hdir, hrest⟩
    · push Not at hrest
      obtain ⟨l, hl, hplain⟩ := hrest
      obtain ⟨first, after, rfl⟩ := List.exists_cons_of_ne_nil (List.ne_nil_of_mem hl)
      exact .inl ⟨hdir, ⟨next, hnext, hworn⟩, l, hl, by simpa using hplain⟩
  · exact .inr ⟨hdir, fun l hl => hrun l (List.mem_append_left _ hl)⟩

/-- What the script remembers of orderly lines: uncommented ones go where they should, and a commented
directory comes from the run that is going on. -/
structure Traced (glob : Glob) (start : List Char) (lines : List (List Char)) (m : Memory) : Prop where
  seen : m.seen = m.dir
  held : m.remembered ≠ [] ∨ m.worn ≠ none → ∃ before line after, lines = before ++ line :: after ∧
    SetsDir glob start line ∧ ∀ l ∈ after, isComment l = true
  fresh : m.remembered ≠ [] → m.worn = none → ∃ before line, lines = before ++ [line] ∧ SetsDir glob start line

theorem lastCwd_comments (before : List (List Char)) {lines : List (List Char)} (h : ∀ line ∈ lines, isComment line = true) :
    lastCwd glob start (before ++ lines) = lastCwd glob start before := by
  induction lines using List.reverseRecOn with
  | nil => rw [List.append_nil]
  | append_singleton lines line ih =>
    have hline : newCwd glob start line = none := by
      obtain rfl | hcommented := (isComment_iff line).1 (h line (by simp))
      · exact newCwd_nil
      · exact newCwd_commented hcommented
    rw [← List.append_assoc, lastCwd_snoc, hline, Option.getD_none, ih fun l hl => h l (List.mem_append_left _ hl)]

theorem Traced.dir_ne {lines : List (List Char)} (h : Traced glob start lines (after glob start lines))
    (orderly : Orderly glob start lines) (hheld : (after glob start lines).remembered ≠ [] ∨ (after glob start lines).worn ≠ none) :
    (after glob start lines).seen ≠ [] := by
  obtain ⟨before, line, rest, hlines, hset, hrun⟩ := h.held hheld
  have hsame : lastCwd glob start lines = lastCwd glob start before := by
    have hcomments : ∀ l ∈ line :: rest, isComment l = true :=
      List.forall_mem_cons.2 ⟨(isComment_iff line).2 (.inr hset.1), hrun⟩
    rw [hlines, lastCwd_comments before hcomments]
  have hdir : lastCwd glob start before ≠ [] := by
    obtain hforgotten | hpending := orderly before line rest hlines hset
    · exact hforgotten.dir
    · exact hpending.dir
  rw [h.seen, after_dir, hsame]
  exact hdir

theorem Traced.comment {pre : List (List Char)} {line : List Char} (h : Traced glob start pre (after glob start pre))
    (orderly : Orderly glob start pre) (hcomment : isComment line = true) :
    Traced glob start (pre ++ [line]) ((after glob start pre).next glob start line) := by
  have hseen : (after glob start pre).comment.seen = (after glob start pre).seen := by
    unfold Memory.comment
    split_ifs with hnone hempty
    · rfl
    · exact absurd hempty (h.dir_ne orderly (.inl hnone))
    · rfl
  have hsame : (after glob start pre).comment.seen = (after glob start pre).comment.dir := by
    rw [hseen, h.seen, Memory.comment_dir]
  have hworn : (after glob start pre).remembered ≠ [] → (after glob start pre).comment.worn ≠ none := by
    intro hne
    unfold Memory.comment
    rw [if_neg hne, if_neg (h.dir_ne orderly (.inl hne))]
    exact Option.some_ne_none _
  -- the run goes on
  have hheld : (after glob start pre).remembered ≠ [] ∨ (after glob start pre).comment.worn ≠ none →
      ∃ before set rest, pre ++ [line] = before ++ set :: rest ∧ SetsDir glob start set ∧ ∀ l ∈ rest, isComment l = true := by
    intro hne
    have hold : (after glob start pre).remembered ≠ [] ∨ (after glob start pre).worn ≠ none := by
      by_cases hnone : (after glob start pre).remembered = []
      · refine .inr ?_
        have hw := hne.resolve_left (not_not_intro hnone)
        unfold Memory.comment at hw
        rwa [if_pos hnone] at hw
      · exact .inl hnone
    obtain ⟨before, set, rest, rfl, hset, hrun⟩ := h.held hold
    refine ⟨before, set, rest ++ [line], by simp, hset, fun l hl => ?_⟩
    exact (List.mem_append.1 hl).elim (hrun l) fun hl => List.mem_singleton.1 hl ▸ hcomment
  unfold Memory.next
  rw [if_pos hcomment]
  cases hcwd : newCwd glob start (body line) with
  | none =>
    refine ⟨hsame, ?_, ?_⟩
    · rw [Memory.comment_remembered]
      exact hheld
    · rw [Memory.comment_remembered]
      exact fun hne hnone => absurd hnone (hworn hne)
  | some dir =>
    have hset : dir ≠ [] → SetsDir glob start line := fun hne => by
      obtain rfl | hcommented := (isComment_iff line).1 hcomment
      · rw [show body [] = [] by decide, newCwd_nil] at hcwd
        cases hcwd
      · exact ⟨hcommented, dir, hcwd, hne⟩
    refine ⟨hsame, fun hne => ?_, fun hne _ => ⟨pre, line, rfl, hset hne⟩⟩
    by_cases hnil : dir = []
    · exact hheld (.inr (hne.resolve_left (not_not_intro hnil)))
    · exact ⟨pre, line, [], rfl, hset hnil, by simp⟩

theorem Traced.plain {pre : List (List Char)} {line : List Char} (h : Traced glob start pre (after glob start pre))
    (orderly : Orderly glob start (pre ++ [line])) (hcomment : isComment line = false) :
    Traced glob start (pre ++ [line]) ((after glob start pre).next glob start line) := by
  -- a directory that no comment has taken on would never be dropped
  have hdropped : (after glob start pre).plain.remembered = [] := by
    unfold Memory.plain
    split_ifs with hworn
    · by_contra hne
      obtain ⟨before, set, hpre, hset⟩ := h.fresh hne hworn
      obtain ⟨-, ⟨next, hnext, htaken⟩, -⟩ | ⟨-, hrun⟩ := orderly before set [line] (by rw [hpre]; simp) hset
      · obtain rfl : line = next := Option.some.inj hnext
        exact Bool.false_ne_true (hcomment.symm.trans htaken)
      · exact Bool.false_ne_true (hcomment.symm.trans (hrun line (List.mem_singleton_self line)))
    · rfl
  have hnothing : ¬ ((after glob start pre).plain.remembered ≠ [] ∨ (after glob start pre).plain.worn ≠ none) := by
    rw [hdropped, Memory.plain_worn]
    simp
  unfold Memory.next
  rw [if_neg (by simp [hcomment])]
  cases newCwd glob start line with
  | none =>
    refine ⟨?_, fun hne => absurd hne hnothing, fun hne => absurd hdropped hne⟩
    rw [Memory.plain_seen, Memory.plain_dir]
    exact h.seen
  | some dir => exact ⟨rfl, fun hne => absurd hne hnothing, fun hne => absurd hdropped hne⟩

theorem after_traced (lines : List (List Char)) (orderly : Orderly glob start lines) :
    Traced glob start lines (after glob start lines) := by
  induction lines using List.reverseRecOn with
  | nil => exact ⟨rfl, by simp [after, Memory.start], by simp [after, Memory.start]⟩
  | append_singleton pre line ih =>
    have hpre := orderly.init
    rw [after_snoc]
    cases hcomment : isComment line with
    | true => exact (ih hpre).comment hpre hcomment
    | false => exact (ih hpre).plain orderly hcomment

theorem Forgets.nothing {lines : List (List Char)} (h : Forgets glob start lines) :
    after glob start lines = ⟨lastCwd glob start lines, lastCwd glob start lines, none, []⟩ := by
  have htraced := after_traced lines fun before line rest hlines hset => .inl (h before line rest hlines hset)
  have hnothing : ¬ ((after glob start lines).remembered ≠ [] ∨ (after glob start lines).worn ≠ none) := by
    intro hheld
    obtain ⟨before, line, rest, hlines, hset, hrun⟩ := htraced.held hheld
    obtain ⟨dropped, hmem, hdropped⟩ := (h before line rest hlines hset).dropped
    exact Bool.false_ne_true (hdropped.symm.trans (hrun dropped hmem))
  have hdir : (after glob start lines).dir = lastCwd glob start lines := after_dir lines
  have hseen := htraced.seen
  rw [not_or, not_not, not_not] at hnothing
  generalize after glob start lines = m at *
  cases m
  simp_all

end Forgetting

/-- No line is blank, and each comment among the lines of an empty directory comes after commented
directories that are forgotten. -/
structure Tidy (glob : Glob) (start : List Char) (lines : List (List Char)) : Prop where
  blank : ∀ line ∈ lines, line ≠ []
  empty : ∀ pre line post, lines = pre ++ line :: post → Commented line → lastCwd glob start pre = [] → Forgets glob start pre

instance (lines : List (List Char)) : Decidable (Tidy glob start lines) :=
  have : Decidable (∀ pre line post, lines = pre ++ line :: post → Commented line → lastCwd glob start pre = [] →
      Forgets glob start pre) :=
    forallSplits (fun pre line _ => Commented line → lastCwd glob start pre = [] → Forgets glob start pre) lines
  decidable_of_iff ((∀ line ∈ lines, line ≠ []) ∧ ∀ pre line post, lines = pre ++ line :: post → Commented line →
    lastCwd glob start pre = [] → Forgets glob start pre) ⟨fun h => ⟨h.1, h.2⟩, fun h => ⟨h.blank, h.empty⟩⟩

theorem Tidy.seen {lines : List (List Char)} (h : Tidy glob start lines) {pre post : List (List Char)} (hlines : lines = pre ++ post) :
    (after glob start pre).seen = (after glob start pre).dir := by
  induction pre using List.reverseRecOn generalizing post with
  | nil => rfl
  | append_singleton pre line ih =>
    have hsplit : lines = pre ++ line :: post := by rw [hlines]; simp
    have hsame := ih hsplit
    rw [after_snoc]
    unfold Memory.next
    split
    · rename_i hcomment
      have hcommented : Commented line :=
        ((isComment_iff line).1 hcomment).resolve_left (h.blank line (hsplit ▸ by simp))
      have hseen : (after glob start pre).comment.seen = (after glob start pre).seen := by
        unfold Memory.comment
        split_ifs with hnone hempty
        · rfl
        · -- nothing is remembered there
          have hdir : lastCwd glob start pre = [] := by rw [← after_dir, ← hsame, hempty]
          rw [(h.empty pre line post hsplit hcommented hdir).nothing] at hnone
          exact absurd rfl hnone
        · rfl
      split <;> simp [hseen, hsame, Memory.comment_dir]
    · split
      · rfl
      · rw [Memory.plain_seen, Memory.plain_dir, hsame]

theorem tidy_of_nonempty {lines : List (List Char)} (hstart : start ≠ []) (hblank : ∀ line ∈ lines, line ≠ [])
    (hcwd : ∀ line ∈ lines, newCwd glob start line ≠ some []) : Tidy glob start lines := by
  refine ⟨hblank, fun pre line post hlines _ hempty => absurd hempty ?_⟩
  have hsub : ∀ l ∈ pre, l ∈ lines := fun l hl => hlines ▸ List.mem_append_left _ hl
  clear hempty hlines
  induction pre using List.reverseRecOn with
  | nil => exact hstart
  | append_singleton pre l ih =>
    rw [lastCwd_snoc]
    cases hl : newCwd glob start l with
    | none => exact ih fun x hx => hsub x (List.mem_append_left _ hx)
    | some dir => exact fun he => hcwd l (hsub l (by simp)) (hl.trans (congrArg some he))

/-- The last commented `@cwd` of the run of commented lines that these end with. -/
def runCwd (glob : Glob) (start : List Char) (lines : List (List Char)) : Option (List Char) :=
  lines.foldl (fun dir line => if Commented line then newCwd glob start (body line) <|> dir else none) none

/-- The run that these lines end with has a directory other than /, or has none and what was before it is
forgotten. -/
def Ready (glob : Glob) (start : List Char) (lines : List (List Char)) : Prop :=
  runCwd glob start lines ≠ some [] ∧ (runCwd glob start lines = none → Forgets glob start lines)

instance (lines : List (List Char)) : Decidable (Ready glob start lines) := inferInstanceAs (Decidable (_ ∧ _))

/-- Each comment comes after lines that are ready for it. -/
def Settled (glob : Glob) (start : List Char) (lines : List (List Char)) : Prop :=
  ∀ pre line post, lines = pre ++ line :: post → Commented line → newCwd glob start (body line) = none → Ready glob start pre

instance (lines : List (List Char)) : Decidable (Settled glob start lines) :=
  forallSplits (fun pre line _ => Commented line → newCwd glob start (body line) = none → Ready glob start pre) lines

end Mports.PlistComments
