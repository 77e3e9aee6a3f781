import Mathlib.Data.List.GetD
import Mathlib.Data.List.TakeWhile

set_option autoImplicit false

namespace Mports.ShellText

def isBlank (c : Char) : Bool := c = ' ' || c = '\t' || c = '\n'

def fields (line : List Char) : List (List Char) := (line.splitOnP isBlank).filter (· ≠ [])

/-- `$n` of awk, empty where there are not so many fields. -/
def field (n : ℕ) (line : List Char) : List Char := (fields line).getD (n - 1) []

/-- The words of a text under an `IFS` of one character that is no blank: it ends a word. -/
def ifsFields (sep : Char) (text : List Char) : List (List Char) :=
  let parts := text.splitOn sep
  if parts.getLast? = some [] then parts.dropLast else parts

/-- `${text#"${start}"}`. -/
def without (start text : List Char) : List Char := if start <+: text then text.drop start.length else text

@[simp] theorem without_append (start rest : List Char) : without start (start ++ rest) = rest := by
  simp [without]

@[simp] theorem without_takeWhile (p : Char → Bool) (text : List Char) :
    without (text.takeWhile p) text = text.dropWhile p := by
  have h := without_append (text.takeWhile p) (text.dropWhile p)
  rwa [List.takeWhile_append_dropWhile] at h

theorem dropWhile_head (p : Char → Bool) (text : List Char) : ∀ c ∈ (text.dropWhile p).head?, p c = false := by
  intro c hc
  have h := List.head?_dropWhile_not p text
  rw [Option.mem_def.1 hc] at h
  simpa using h

theorem blank_of_digit {c : Char} (h : c.isDigit = true) : isBlank c = false := by
  rw [Bool.eq_false_iff]
  intro hblank
  simp only [isBlank, Bool.or_eq_true, decide_eq_true_eq] at hblank
  rcases hblank with (rfl | rfl) | rfl <;> cases h

@[simp] theorem fields_nil : fields [] = [] := rfl

theorem ifsFields_lines {sep : Char} {words : List (List Char)} (h : ∀ w ∈ words, sep ∉ w) :
    ifsFields sep (words.flatMap (· ++ [sep])) = words := by
  have hparts : (words.flatMap (· ++ [sep])).splitOn sep = words ++ [[]] := by
    induction words with
    | nil => rfl
    | cons w words ih =>
      rw [List.flatMap_cons, List.append_assoc, List.singleton_append,
        List.splitOn_append_cons_self_of_not_mem (h w List.mem_cons_self), ih fun w hw => h w (List.mem_cons_of_mem _ hw)]
      rfl
  simp [ifsFields, hparts]

theorem part_plain {p : Char → Bool} {text part : List Char} (h : part ∈ text.splitOnP p) : ∀ c ∈ part, p c = false := by
  induction text generalizing part with
  | nil =>
    rw [List.splitOnP_nil, List.mem_singleton] at h
    simp [h]
  | cons x text ih =>
    obtain ⟨q, qs, hqs⟩ := List.exists_cons_of_ne_nil (List.splitOnP_ne_nil p text)
    rw [List.splitOnP_cons_eq_if_modifyHead] at h
    rw [hqs] at h ih
    by_cases hx : p x
    · rw [if_pos hx, List.mem_cons] at h
      rcases h with rfl | h
      · simp
      · exact ih h
    · rw [if_neg hx, List.modifyHead_cons, List.mem_cons] at h
      rcases h with rfl | h
      · exact List.forall_mem_cons.2 ⟨by simpa using hx, ih List.mem_cons_self⟩
      · exact ih (List.mem_cons_of_mem _ h)

theorem part_subset {p : Char → Bool} {text part : List Char} (h : part ∈ text.splitOnP p) : part ⊆ text := by
  induction text generalizing part with
  | nil => simp_all
  | cons c text ih =>
    obtain ⟨q, qs, hqs⟩ := List.exists_cons_of_ne_nil (List.splitOnP_ne_nil p text)
    rw [List.splitOnP_cons_eq_if_modifyHead] at h
    rw [hqs] at h ih
    split at h
    · rcases List.mem_cons.1 h with rfl | h
      · simp
      · exact List.Subset.trans (ih h) (List.subset_cons_self _ _)
    · rw [List.modifyHead_cons, List.mem_cons] at h
      rcases h with rfl | h
      · exact List.cons_subset_cons _ (ih (by simp))
      · exact List.Subset.trans (ih (List.mem_cons_of_mem _ h)) (List.subset_cons_self _ _)

theorem mem_intercalate {sep c : Char} {texts : List (List Char)} (h : c ∈ [sep].intercalate texts) :
    c = sep ∨ ∃ text ∈ texts, c ∈ text := by
  induction texts with
  | nil => simp at h
  | cons t texts ih =>
    cases texts with
    | nil => exact .inr ⟨t, List.mem_cons_self, by simpa using h⟩
    | cons t' texts =>
      rw [List.intercalate_cons_cons, List.mem_append, List.mem_append, List.mem_singleton] at h
      obtain (h | h) | h := h
      · exact .inr ⟨t, List.mem_cons_self, h⟩
      · exact .inl h
      · obtain hc | ⟨text, htext, hc⟩ := ih h
        · exact .inl hc
        · exact .inr ⟨text, List.mem_cons_of_mem _ htext, hc⟩

theorem field_plain (n : ℕ) (line : List Char) : ∀ c ∈ field n line, isBlank c = false := by
  unfold field
  by_cases hn : n - 1 < (fields line).length
  · rw [List.getD_eq_getElem _ _ hn]
    exact part_plain (List.mem_filter.1 (List.getElem_mem hn)).1
  · rw [List.getD_eq_default _ _ (Nat.le_of_not_lt hn)]
    simp

theorem fields_word {w rest : List Char} {c : Char} (hw : ∀ x ∈ w, isBlank x = false) (hne : w ≠ []) (hc : isBlank c) :
    fields (w ++ c :: rest) = w :: fields rest := by
  rw [fields, List.splitOnP_append_cons_of_forall_mem hw c hc, List.filter_cons_of_pos (by simpa using hne), fields]

theorem fields_last {w : List Char} (hw : ∀ x ∈ w, isBlank x = false) (hne : w ≠ []) : fields w = [w] := by
  rw [fields, List.splitOnP_eq_singleton hw, List.filter_cons_of_pos (by simpa using hne), List.filter_nil]

theorem fields_append {c : Char} (hc : isBlank c) (a b : List Char) : fields (a ++ c :: b) = fields a ++ fields b := by
  rw [fields, List.splitOnP_append_cons _ _ hc, List.filter_append]
  rfl

theorem fields_cons {c : Char} (hc : isBlank c) (text : List Char) : fields (c :: text) = fields text :=
  fields_append hc [] text

theorem mem_fields {text w : List Char} (h : w ∈ fields text) : w ≠ [] ∧ ∀ c ∈ w, isBlank c = false := by
  obtain ⟨hpart, hne⟩ := List.mem_filter.1 h
  exact ⟨by simpa using hne, part_plain hpart⟩

theorem fields_joined {words : List (List Char)} (h : ∀ w ∈ words, w ≠ [] ∧ ∀ c ∈ w, isBlank c = false) :
    fields ([' '].intercalate words) = words := by
  induction words with
  | nil => rfl
  | cons w words ih =>
    obtain ⟨hne, hplain⟩ := h w List.mem_cons_self
    have hwords : ∀ x ∈ words, x ≠ [] ∧ ∀ c ∈ x, isBlank c = false := fun x hx => h x (List.mem_cons_of_mem _ hx)
    cases words with
    | nil => rw [List.intercalate_singleton, fields_last hplain hne]
    | cons w' words =>
      rw [List.intercalate_cons_cons, List.append_assoc, List.singleton_append, fields_word hplain hne rfl, ih hwords]

theorem takeWhile_stop {p : Char → Bool} {w rest : List Char} (hw : ∀ c ∈ w, p c)
    (hrest : ∀ c ∈ rest.head?, p c = false) : (w ++ rest).takeWhile p = w := by
  rw [List.takeWhile_append_of_pos hw]
  cases rest with
  | nil => simp
  | cons c rest =>
    rw [List.takeWhile_cons_of_neg (by simp [hrest c (by simp)]), List.append_nil]

end Mports.ShellText
