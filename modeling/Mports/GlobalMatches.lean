import Mathlib.Data.List.Basic

set_option autoImplicit false

/-!
All matches of a pattern in a text, as a global match finds them: from left to right, the
next one sought behind the last.
-/
namespace Mports.GlobalMatches

/-- What a pattern captures at the beginning of a text, with the text behind the match. No
match is empty. -/
structure Pattern (α β : Type*) where
  first : List α → Option (β × List α)
  shorter : ∀ {text b rest}, first text = some (b, rest) → rest.length < text.length

variable {α β : Type*} (m : Pattern α β)

def upTo : ℕ → List α → List β
  | 0, _ => []
  | _, [] => []
  | n + 1, a :: text =>
    match m.first (a :: text) with
    | some (b, rest) => b :: upTo n rest
    | none => upTo n text

def all (text : List α) : List β := upTo m text.length text

inductive Reads : List α → β → Prop where
  | here {text rest : List α} {b : β} (h : m.first text = some (b, rest)) : Reads text b
  | later {text rest : List α} {b b' : β} (h : m.first text = some (b, rest)) (hrest : Reads rest b') : Reads text b'
  | skip {a : α} {text : List α} {b : β} (h : m.first (a :: text) = none) (hrest : Reads text b) : Reads (a :: text) b

variable {m}

theorem upTo_of_le : ∀ {n k : ℕ} {text : List α}, text.length ≤ n → text.length ≤ k → upTo m n text = upTo m k text := by
  intro n
  induction n with
  | zero =>
    intro k text hn _
    rw [List.length_eq_zero_iff.1 (Nat.le_zero.1 hn)]
    cases k <;> rfl
  | succ n ih =>
    intro k text hn hk
    cases text with
    | nil => cases k <;> rfl
    | cons a text =>
      cases k with
      | zero => simp at hk
      | succ k =>
        simp only [List.length_cons, Nat.add_le_add_iff_right] at hn hk
        rw [upTo, upTo]
        cases hfirst : m.first (a :: text) with
        | none => exact ih hn hk
        | some found =>
          have hshort := m.shorter hfirst
          rw [List.length_cons] at hshort
          exact congrArg (found.1 :: ·) (ih (by omega) (by omega))

@[simp] theorem all_nil : all m [] = [] := rfl

@[simp] theorem first_nil : m.first [] = none := by
  cases h : m.first [] with
  | none => rfl
  | some found => exact absurd (m.shorter h) (Nat.not_lt_zero _)

theorem all_found {text rest : List α} {b : β} (h : m.first text = some (b, rest)) : all m text = b :: all m rest := by
  cases text with
  | nil => simp at h
  | cons a text =>
    have hshort := m.shorter h
    rw [List.length_cons] at hshort
    rw [all, List.length_cons, upTo, h]
    exact congrArg (b :: ·) (upTo_of_le (by omega) (Nat.le_refl _))

theorem all_skip {a : α} {text : List α} (h : m.first (a :: text) = none) : all m (a :: text) = all m text := by
  rw [all, List.length_cons, upTo, h]
  rfl

theorem mem_all {text : List α} {b : β} : b ∈ all m text ↔ Reads m text b := by
  constructor
  · intro h
    induction hn : text.length using Nat.strongRecOn generalizing text with
    | ind n ih =>
      cases hfirst : m.first text with
      | some found =>
        rw [all_found hfirst] at h
        rcases List.mem_cons.1 h with rfl | h
        · exact .here hfirst
        · exact .later hfirst (ih _ (hn ▸ m.shorter hfirst) h rfl)
      | none =>
        cases text with
        | nil => simp at h
        | cons a text =>
          rw [all_skip hfirst] at h
          exact .skip hfirst (ih _ (by simp [← hn]) h rfl)
  · intro h
    induction h with
    | here h => rw [all_found h]; exact List.mem_cons_self
    | later h _ ih => rw [all_found h]; exact List.mem_cons_of_mem _ ih
    | skip h _ ih => rwa [all_skip h]

variable {p : α → Bool}

/-- A pattern that never looks behind a character of some kind, nor matches one. -/
def Bounded (m : Pattern α β) (p : α → Bool) : Prop :=
  ∀ a s b, p s → m.first (a ++ s :: b) = (m.first a).map fun r => (r.1, r.2 ++ s :: b)

theorem all_append (hm : Bounded m p) {s : α} (hs : p s) (a b : List α) :
    all m (a ++ s :: b) = all m a ++ all m b := by
  induction hn : a.length using Nat.strongRecOn generalizing a with
  | ind n ih =>
    have hwhole := hm a s b hs
    cases hfirst : m.first a with
    | some found =>
      rw [hfirst, Option.map_some] at hwhole
      rw [all_found hwhole, all_found hfirst, ih _ (hn ▸ m.shorter hfirst) _ rfl, List.cons_append]
    | none =>
      rw [hfirst, Option.map_none] at hwhole
      cases a with
      | nil => exact all_skip hwhole
      | cons c a =>
        rw [List.cons_append] at hwhole ⊢
        rw [all_skip hwhole, all_skip hfirst, ih _ (by simp [← hn]) _ rfl]

theorem mem_all_of_part (hm : Bounded m p) {text part : List α} (hpart : part ∈ text.splitOnP p) {b : β}
    (hb : b ∈ all m part) : b ∈ all m text := by
  induction hn : text.length using Nat.strongRecOn generalizing text with
  | ind n ih =>
    by_cases hany : ∀ x ∈ text, p x = false
    · rw [List.splitOnP_eq_singleton hany, List.mem_singleton] at hpart
      exact hpart ▸ hb
    · push Not at hany
      obtain ⟨a, s, rest, rfl, hs⟩ : ∃ a s rest, text = a ++ s :: rest ∧ p s := by
        obtain ⟨s, hs, hp⟩ := hany
        obtain ⟨a, rest, rfl⟩ := List.append_of_mem hs
        exact ⟨a, s, rest, rfl, by simpa using hp⟩
      rw [List.splitOnP_append_cons _ _ hs] at hpart
      rw [all_append hm hs]
      rcases List.mem_append.1 hpart with hpart | hpart
      · exact List.mem_append_left _ (ih _ (by simp [← hn]) hpart rfl)
      · exact List.mem_append_right _ (ih _ (by simp [← hn]; omega) hpart rfl)

end Mports.GlobalMatches
