import Mathlib.Data.List.Basic

set_option autoImplicit false

namespace Mports.PerlText

instance lawfulText : LawfulBEq (List Char) := inferInstance

/-- `\s`, without Unicode. -/
def isSpace (c : Char) : Bool :=
  c = ' ' || c = '\t' || c = '\n' || c = '\r' || c = Char.ofNat 11 || c = Char.ofNat 12

/-- `s/^\s+|\s+$//g`. -/
def trim (text : List Char) : List Char :=
  ((text.dropWhile isSpace).reverse.dropWhile isSpace).reverse

/-- `split /sep/, $text, 2`, when there is a separator. -/
def splitOnce (sep : Char) (text : List Char) : Option (List Char × List Char) :=
  match text.dropWhile (· ≠ sep) with
  | [] => none
  | _ :: rest => some (text.takeWhile (· ≠ sep), rest)

/-- `split /sep/, $text`: empty fields at the end are left out. -/
def split (sep : Char) (text : List Char) : List (List Char) :=
  ((text.splitOn sep).reverse.dropWhile (· = [])).reverse

def isTrue (text : List Char) : Bool := text ≠ [] && text ≠ ['0']

def lc (text : List Char) : List Char := text.map Char.toLower

/-- `chomp`. -/
def chomped (text : List Char) : List Char := if text.getLast? = some '\n' then text.dropLast else text

theorem space_of_digit {c : Char} (h : c.isDigit = true) : isSpace c = false := by
  rw [Bool.eq_false_iff]
  intro hspace
  simp only [isSpace, Bool.or_eq_true, decide_eq_true_eq, or_assoc] at hspace
  rcases hspace with rfl | rfl | rfl | rfl | rfl | rfl <;> cases h

theorem plain_of_any {text : List Char} (h : text.any isSpace = false) : ∀ c ∈ text, isSpace c = false :=
  fun c hc => Bool.eq_false_iff.2 (List.any_eq_false.1 h c hc)

theorem splitOnce_eq {sep : Char} {text a b : List Char} (h : splitOnce sep text = some (a, b)) :
    text = a ++ sep :: b := by
  have hparts := List.takeWhile_append_dropWhile (p := (· ≠ sep)) (l := text)
  unfold splitOnce at h
  cases hrest : text.dropWhile (· ≠ sep) with
  | nil =>
    rw [hrest] at h
    cases h
  | cons c rest =>
    have hc : c = sep := by
      have hne : text.dropWhile (· ≠ sep) ≠ [] := by
        rw [hrest]
        exact List.cons_ne_nil c rest
      have hhead := List.head_dropWhile_not (· ≠ sep) hne
      simp only [hrest, List.head_cons] at hhead
      simpa using hhead
    rw [hrest] at h hparts
    simp only [Option.some.injEq, Prod.mk.injEq] at h
    rw [← hparts, hc, h.1, h.2]

theorem mem_split {sep : Char} {text part : List Char} (h : part ∈ text.splitOn sep) (hne : part ≠ []) :
    part ∈ split sep text := by
  have hdrop : ∀ l : List (List Char), part ∈ l → part ∈ l.dropWhile (· = []) := by
    intro l hl
    induction l with
    | nil => exact hl
    | cons x xs ih =>
      by_cases hx : x = []
      · rw [List.dropWhile_cons_of_pos (by simp [hx])]
        exact ih ((List.mem_cons.1 hl).resolve_left (hx ▸ hne))
      · rwa [List.dropWhile_cons_of_neg (by simp [hx])]
  exact List.mem_reverse.2 (hdrop _ (List.mem_reverse.2 h))

theorem mem_lines {sep : Char} {lines : List (List Char)} (hlines : ∀ l ∈ lines, sep ∉ l) {line : List Char}
    (h : line ∈ lines) : line ∈ (lines.flatMap (· ++ [sep])).splitOn sep := by
  induction lines with
  | nil => cases h
  | cons l ls ih =>
    have hrest := ih fun l hl => hlines l (List.mem_cons_of_mem _ hl)
    rw [List.flatMap_cons, List.append_assoc, List.singleton_append,
      List.splitOn_append_cons_self_of_not_mem (hlines l (by simp))]
    rcases List.mem_cons.1 h with rfl | h
    · simp
    · exact List.mem_cons_of_mem _ (hrest h)

theorem mem_of_mem_split {sep : Char} {text part : List Char} (h : part ∈ split sep text) : part ∈ text.splitOn sep :=
  List.mem_reverse.1 ((List.dropWhile_sublist _).subset (List.mem_reverse.1 h))

theorem of_mem_lines {sep : Char} {lines : List (List Char)} (hlines : ∀ l ∈ lines, sep ∉ l) {line : List Char}
    (h : line ∈ (lines.flatMap (· ++ [sep])).splitOn sep) : line = [] ∨ line ∈ lines := by
  induction lines with
  | nil => exact .inl (List.mem_singleton.1 h)
  | cons l ls ih =>
    rw [List.flatMap_cons, List.append_assoc, List.singleton_append,
      List.splitOn_append_cons_self_of_not_mem (hlines l (by simp))] at h
    rcases List.mem_cons.1 h with rfl | h
    · exact .inr (List.mem_cons_self ..)
    · exact (ih (fun l hl => hlines l (List.mem_cons_of_mem _ hl)) h).imp_right (List.mem_cons_of_mem _)

theorem mem_splitOn (sep : Char) {c : Char} {text : List Char} (h : c ∈ text) :
    c = sep ∨ ∃ part ∈ text.splitOn sep, c ∈ part := by
  induction text with
  | nil => cases h
  | cons x xs ih =>
    obtain ⟨p, ps, hps⟩ := List.exists_cons_of_ne_nil (List.splitOn_ne_nil sep xs)
    rw [List.splitOn_cons_eq_if_modifyHead]
    by_cases hx : x = sep
    · rcases List.mem_cons.1 h with rfl | h
      · exact .inl hx
      · rcases ih h with h | ⟨part, hpart, hc⟩
        · exact .inl h
        · exact .inr ⟨part, by simp [hx, hpart], hc⟩
    · rw [if_neg (by simpa using hx), hps, List.modifyHead_cons]
      rcases List.mem_cons.1 h with rfl | h
      · exact .inr ⟨c :: p, by simp, by simp⟩
      · rcases ih h with h | ⟨part, hpart, hc⟩
        · exact .inl h
        · rw [hps] at hpart
          rcases List.mem_cons.1 hpart with rfl | hpart
          · exact .inr ⟨x :: part, by simp, by simp [hc]⟩
          · exact .inr ⟨part, by simp [hpart], hc⟩

theorem toString_toList (n : ℕ) : (toString n).toList = Nat.toDigits 10 n := by simp [toString, Nat.repr]

theorem toString_isDigit (n : ℕ) : ∀ c ∈ (toString n).toList, c.isDigit := by
  rw [toString_toList]
  intro c hc
  exact Nat.isDigit_of_mem_toDigits (by decide) (by decide) hc

theorem toString_ne_nil (n : ℕ) : (toString n).toList ≠ [] := by
  rw [toString_toList]
  exact Nat.toDigits_ne_nil

theorem toString_value (n : ℕ) : Nat.ofDigitChars 10 (toString n).toList 0 = n := by
  rw [toString_toList]
  exact Nat.ofDigitChars_ten_toDigits

end Mports.PerlText
