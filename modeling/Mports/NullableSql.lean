import Mathlib.Data.List.Sort
import Mathlib.Data.List.Dedup

set_option autoImplicit false

/-!
Queries of SQL over nullable columns: conditions that are true, false or unknown, the
left join, whose unmatched rows have NULL on the right, and what `WHERE` keeps.
-/
namespace Mports.NullableSql

/-- The value of a condition; `none` is unknown. -/
abbrev Truth := Option Bool

namespace Truth

def Holds (t : Truth) : Prop := t = some true

instance (t : Truth) : Decidable t.Holds := inferInstanceAs (Decidable (t = some true))

def not (t : Truth) : Truth := t.map (! ·)

def and : Truth → Truth → Truth
  | some false, _ => some false
  | _, some false => some false
  | some true, some true => some true
  | _, _ => none

def or : Truth → Truth → Truth
  | some true, _ => some true
  | _, some true => some true
  | some false, some false => some false
  | _, _ => none

@[simp] theorem holds_some (b : Bool) : Holds (some b) ↔ b = true := by simp [Holds]

@[simp] theorem not_holds_none : ¬ Holds none := by simp [Holds]

@[simp] theorem holds_and (s t : Truth) : (s.and t).Holds ↔ s.Holds ∧ t.Holds := by
  rcases s with _ | _ | _ <;> rcases t with _ | _ | _ <;> simp [and, Holds]

@[simp] theorem holds_or (s t : Truth) : (s.or t).Holds ↔ s.Holds ∨ t.Holds := by
  rcases s with _ | _ | _ <;> rcases t with _ | _ | _ <;> simp [or, Holds]

@[simp] theorem holds_not (t : Truth) : t.not.Holds ↔ t = some false := by
  rcases t with _ | _ | _ <;> simp [not, Holds]

end Truth

section Conditions
variable {α : Type}

/-- `a is NULL`. -/
def isNull (a : Option α) : Truth := some a.isNone

@[simp] theorem holds_isNull (a : Option α) : (isNull a).Holds ↔ a = none := by
  simp [isNull]

variable [DecidableEq α]

/-- `a = b`. -/
def eq (a b : Option α) : Truth :=
  match a, b with
  | some x, some y => some (decide (x = y))
  | _, _ => none

/-- `a != b`. -/
def ne (a b : Option α) : Truth := (eq a b).not

/-- `a in (...)`, for constants. -/
def isIn (a : Option α) (values : List α) : Truth := a.map fun x => decide (x ∈ values)

/-- `a not in (...)`. -/
def notIn (a : Option α) (values : List α) : Truth := (isIn a values).not

@[simp] theorem holds_eq (a b : Option α) : (eq a b).Holds ↔ ∃ x, a = some x ∧ b = some x := by
  cases a <;> cases b <;> simp [eq, eq_comm]

@[simp] theorem holds_ne (a b : Option α) :
    (ne a b).Holds ↔ ∃ x y, a = some x ∧ b = some y ∧ x ≠ y := by
  cases a <;> cases b <;> simp [ne, eq, Truth.not]

@[simp] theorem holds_isIn (a : Option α) (values : List α) :
    (isIn a values).Holds ↔ ∃ x, a = some x ∧ x ∈ values := by
  cases a <;> simp [isIn]

@[simp] theorem holds_notIn (a : Option α) (values : List α) :
    (notIn a values).Holds ↔ ∃ x, a = some x ∧ x ∉ values := by
  cases a <;> simp [notIn, isIn, Truth.not]

end Conditions

section Joins
variable {α β : Type}

/-- `EXISTS (...)`, which is never unknown. -/
def anyRow (rows : List α) : Truth := some !rows.isEmpty

@[simp] theorem holds_anyRow (rows : List α) : (anyRow rows).Holds ↔ rows ≠ [] := by
  cases rows <;> simp [anyRow]

@[simp] theorem anyRow_eq_false (rows : List α) : anyRow rows = some false ↔ rows = [] := by
  cases rows <;> simp [anyRow]

/-- `WHERE`. -/
def keep (condition : α → Truth) (rows : List α) : List α :=
  rows.filter fun row => (condition row).Holds

@[simp] theorem mem_keep {condition : α → Truth} {rows : List α} {row : α} :
    row ∈ keep condition rows ↔ row ∈ rows ∧ (condition row).Holds := by
  simp [keep]

theorem keep_eq_nil {condition : α → Truth} {rows : List α} :
    keep condition rows = [] ↔ ∀ row ∈ rows, ¬ (condition row).Holds := by
  simp [keep]

/-- `l inner join r on c`. -/
def innerJoin (c : α → β → Truth) (l : List α) (r : List β) : List (α × β) :=
  l.flatMap fun a => (keep (c a) r).map (a, ·)

@[simp] theorem mem_innerJoin {c : α → β → Truth} {l : List α} {r : List β} {a : α} {b : β} :
    (a, b) ∈ innerJoin c l r ↔ a ∈ l ∧ b ∈ r ∧ (c a b).Holds := by
  simp [innerJoin]

/-- `l left join r on c`: a row without a partner is kept once, with NULL. -/
def leftJoin (c : α → β → Truth) (l : List α) (r : List β) : List (α × Option β) :=
  l.flatMap fun a => match keep (c a) r with
    | [] => [(a, none)]
    | partners => partners.map fun b => (a, some b)

theorem mem_leftJoin_some {c : α → β → Truth} {l : List α} {r : List β} {a : α} {b : β} :
    (a, some b) ∈ leftJoin c l r ↔ a ∈ l ∧ b ∈ r ∧ (c a b).Holds := by
  unfold leftJoin
  rw [List.mem_flatMap]
  constructor
  · rintro ⟨a', ha, hmem⟩
    split at hmem
    · simp at hmem
    · obtain ⟨b', hb, heq⟩ := List.mem_map.1 hmem
      cases heq
      exact ⟨ha, mem_keep.1 hb⟩
  · rintro ⟨ha, hb, hc⟩
    refine ⟨a, ha, ?_⟩
    have hpartner : b ∈ keep (c a) r := mem_keep.2 ⟨hb, hc⟩
    split
    · rename_i hnone
      simp [hnone] at hpartner
    · exact List.mem_map.2 ⟨b, hpartner, rfl⟩

theorem mem_leftJoin_none {c : α → β → Truth} {l : List α} {r : List β} {a : α} :
    (a, none) ∈ leftJoin c l r ↔ a ∈ l ∧ ∀ b ∈ r, ¬ (c a b).Holds := by
  unfold leftJoin
  rw [List.mem_flatMap]
  constructor
  · rintro ⟨a', ha, hmem⟩
    split at hmem
    · rename_i hnone
      simp only [List.mem_singleton, Prod.mk.injEq, and_true] at hmem
      subst hmem
      refine ⟨ha, fun b hb hc => ?_⟩
      have hpartner : b ∈ keep (c a) r := mem_keep.2 ⟨hb, hc⟩
      simp [hnone] at hpartner
    · simp at hmem
  · rintro ⟨ha, hc⟩
    refine ⟨a, ha, ?_⟩
    split
    · simp
    · rename_i partners hsome
      cases hpartners : keep (c a) r with
      | nil => exact absurd hpartners hsome
      | cons b _ =>
        have hb : b ∈ keep (c a) r := by simp [hpartners]
        exact absurd (mem_keep.1 hb).2 (hc b (mem_keep.1 hb).1)

/-- What some row of a left join satisfies: a partner does, or NULL where there is none. -/
theorem exists_mem_leftJoin {c : α → β → Truth} {l : List α} {r : List β} {a : α}
    {P : Option β → Prop} : (∃ o, (a, o) ∈ leftJoin c l r ∧ P o) ↔
    a ∈ l ∧ ((∃ b ∈ r, (c a b).Holds ∧ P (some b)) ∨ ((∀ b ∈ r, ¬ (c a b).Holds) ∧ P none)) := by
  constructor
  · rintro ⟨_ | b, hmem, hP⟩
    · obtain ⟨ha, hnone⟩ := mem_leftJoin_none.1 hmem
      exact ⟨ha, .inr ⟨hnone, hP⟩⟩
    · obtain ⟨ha, hb, hc⟩ := mem_leftJoin_some.1 hmem
      exact ⟨ha, .inl ⟨b, hb, hc, hP⟩⟩
  · rintro ⟨ha, ⟨b, hb, hc, hP⟩ | ⟨hnone, hP⟩⟩
    · exact ⟨some b, mem_leftJoin_some.2 ⟨ha, hb, hc⟩, hP⟩
    · exact ⟨none, mem_leftJoin_none.2 ⟨ha, hnone⟩, hP⟩

/-- A row has at most one partner: the join is on a key of the right table. -/
def Keyed (c : α → β → Truth) (r : List β) : Prop := ∀ a, (keep (c a) r).length ≤ 1

theorem keyed_of_nodup {κ : Type} {c : α → β → Truth} {r : List β} {key : β → κ}
    (hkey : (r.map key).Nodup) (hc : ∀ a, ∀ b ∈ r, ∀ b' ∈ r, (c a b).Holds → (c a b').Holds → key b = key b') :
    Keyed c r := by
  intro a
  have hnodup : ((keep (c a) r).map key).Nodup := hkey.sublist (List.filter_sublist.map key)
  cases hrows : keep (c a) r with
  | nil => simp
  | cons b rows =>
    cases rows with
    | nil => simp
    | cons b' rows =>
      have hb : b ∈ keep (c a) r := by simp [hrows]
      have hb' : b' ∈ keep (c a) r := by simp [hrows]
      have hsame := hc a b (mem_keep.1 hb).1 b' (mem_keep.1 hb').1 (mem_keep.1 hb).2 (mem_keep.1 hb').2
      simp [hrows, hsame] at hnodup

theorem leftJoin_fst {c : α → β → Truth} {l : List α} {r : List β} (h : Keyed c r) :
    (leftJoin c l r).map Prod.fst = l := by
  induction l with
  | nil => rfl
  | cons a l ih =>
    have hone := h a
    simp only [leftJoin, List.flatMap_cons, List.map_append] at ih ⊢
    rw [ih]
    cases hrows : keep (c a) r with
    | nil => rfl
    | cons b rows =>
      have hnil : rows = [] := by simpa [hrows] using hone
      simp [hnil]

theorem innerJoin_fst {c : α → β → Truth} {l : List α} {r : List β} (h : Keyed c r) :
    ((innerJoin c l r).map Prod.fst).Sublist l := by
  induction l with
  | nil => exact List.Sublist.slnil
  | cons a l ih =>
    have hone := h a
    simp only [innerJoin, List.flatMap_cons, List.map_append] at ih ⊢
    cases hrows : keep (c a) r with
    | nil => exact ih.cons a
    | cons b rows =>
      have hnil : rows = [] := by simpa [hrows] using hone
      simpa [hnil] using ih.cons_cons a

end Joins
end Mports.NullableSql
