import Mathlib.Data.List.Basic
import Mathlib.Logic.Function.Basic

set_option autoImplicit false

/-!
A store whose entries expire: each is written with a time to live, which starts again when it is
touched, and is dropped or runs out.
-/
namespace Mports.ExpiringStore

variable {κ ν : Type} [DecidableEq κ]

structure Store (κ ν : Type) where
  now : ℕ
  entries : κ → Option (ν × ℕ)

def Store.live (s : Store κ ν) (k : κ) : Option ν :=
  match s.entries k with
  | some (v, deadline) => if s.now < deadline then some v else none
  | none => none

inductive Op (κ ν : Type) where
  | tick (n : ℕ)
  | put (k : κ) (v : ν)
  | touch (k : κ)
  | drop (k : κ)

def Store.write (s : Store κ ν) (k : κ) (entry : Option (ν × ℕ)) : Store κ ν :=
  { s with entries := Function.update s.entries k entry }

variable (ttl : ℕ)

def apply (s : Store κ ν) : Op κ ν → Store κ ν
  | .tick n => { s with now := s.now + n }
  | .put k v => s.write k (some (v, s.now + ttl))
  | .touch k =>
    match s.live k with
    | some v => s.write k (some (v, s.now + ttl))
    | none => s
  | .drop k => s.write k none

def applyAll (ops : List (Op κ ν)) (s : Store κ ν) : Store κ ν := ops.foldl (apply ttl) s

def Store.empty : Store κ ν := ⟨0, fun _ => none⟩

/-- From an idle time on an entry is touched in time again and again, and neither dropped nor written anew. -/
def Kept (k : κ) : ℕ → List (Op κ ν) → Prop
  | idle, [] => idle < ttl
  | idle, .tick n :: ops => idle + n < ttl ∧ Kept k (idle + n) ops
  | idle, .put k' _ :: ops => k' ≠ k ∧ Kept k idle ops
  | idle, .touch k' :: ops => Kept k (if k' = k then 0 else idle) ops
  | idle, .drop k' :: ops => k' ≠ k ∧ Kept k idle ops

def Age (s : Store κ ν) (k : κ) (v : ν) (idle : ℕ) : Prop :=
  idle < ttl ∧ ∃ deadline, s.entries k = some (v, deadline) ∧ deadline + idle = s.now + ttl

def Bounded (s : Store κ ν) : Prop := ∀ k v deadline, s.entries k = some (v, deadline) → deadline ≤ s.now + ttl

variable {ttl} {s : Store κ ν} {k : κ} {v : ν}

theorem write_self (entry : Option (ν × ℕ)) : (s.write k entry).entries k = entry := Function.update_self _ _ _

theorem write_other {k' : κ} (h : k ≠ k') (entry : Option (ν × ℕ)) : (s.write k' entry).entries k = s.entries k :=
  Function.update_of_ne h _ _

omit [DecidableEq κ] in
theorem live_iff_age (h : Bounded ttl s) : s.live k = some v ↔ ∃ idle, Age ttl s k v idle := by
  unfold Store.live Age
  cases hentry : s.entries k with
  | none => simp
  | some entry =>
    obtain ⟨w, deadline⟩ := entry
    have hbound := h k w deadline hentry
    dsimp only
    constructor
    · intro hlive
      split_ifs at hlive with hnow
      obtain rfl := Option.some.inj hlive
      exact ⟨s.now + ttl - deadline, by omega, deadline, rfl, by omega⟩
    · rintro ⟨idle, hidle, deadline', heq, hage⟩
      obtain ⟨rfl, rfl⟩ := Prod.mk.inj (Option.some.inj heq)
      rw [if_pos (by omega)]

theorem write_bounded (h : Bounded ttl s) (k : κ) {entry : Option (ν × ℕ)} (hentry : ∀ e ∈ entry, e.2 ≤ s.now + ttl) :
    Bounded ttl (s.write k entry) := by
  intro k' v' deadline heq
  by_cases hk : k' = k
  · subst hk
    rw [write_self] at heq
    exact hentry _ heq
  · rw [write_other hk] at heq
    exact h k' v' deadline heq

theorem apply_bounded (h : Bounded ttl s) (op : Op κ ν) : Bounded ttl (apply ttl s op) := by
  cases op with
  | tick n =>
    intro k v deadline hentry
    have hbound := h k v deadline hentry
    change deadline ≤ s.now + n + ttl
    omega
  | put k v => exact write_bounded h k (by simp)
  | touch k =>
    unfold apply
    dsimp only
    cases s.live k with
    | none => exact h
    | some v => exact write_bounded h k (by simp)
  | drop k => exact write_bounded h k (by simp)

theorem age_written (v' : ν) (idle : ℕ) :
    Age ttl (s.write k (some (v, s.now + ttl))) k v' idle ↔ v' = v ∧ idle = 0 ∧ 0 < ttl := by
  unfold Age
  rw [write_self]
  constructor
  · rintro ⟨hidle, deadline, heq, hage⟩
    obtain ⟨rfl, rfl⟩ := Prod.mk.inj (Option.some.inj heq)
    change s.now + ttl + idle = s.now + ttl at hage
    exact ⟨rfl, by omega, by omega⟩
  · rintro ⟨rfl, rfl, httl⟩
    exact ⟨httl, _, rfl, rfl⟩

theorem age_other {k' : κ} (hk : k ≠ k') (entry : Option (ν × ℕ)) (idle : ℕ) :
    Age ttl (s.write k' entry) k v idle ↔ Age ttl s k v idle := by
  unfold Age
  rw [write_other hk]
  rfl

theorem kept_positive {idle : ℕ} {ops : List (Op κ ν)} (h : Kept ttl k idle ops) : 0 < ttl := by
  induction ops generalizing idle with
  | nil => exact Nat.zero_lt_of_lt h
  | cons op ops ih =>
    cases op with
    | tick n => exact ih h.2
    | put k' v => exact ih h.2
    | touch k' => exact ih h
    | drop k' => exact ih h.2

theorem kept_drop {idle : ℕ} {ops : List (Op κ ν)} (h : Kept ttl k idle ops) : .drop k ∉ ops := by
  induction ops generalizing idle with
  | nil => nofun
  | cons op ops ih =>
    rw [List.mem_cons, not_or]
    cases op with
    | tick n => exact ⟨nofun, ih h.2⟩
    | put k' v => exact ⟨nofun, ih h.2⟩
    | touch k' => exact ⟨nofun, ih h⟩
    | drop k' => exact ⟨fun heq => h.1 (Op.drop.inj heq).symm, ih h.2⟩

theorem age_step (h : Bounded ttl s) (op : Op κ ν) (ops : List (Op κ ν)) :
    (∃ idle, Age ttl (apply ttl s op) k v idle ∧ Kept ttl k idle ops) ↔
      (op = .put k v ∧ Kept ttl k 0 ops) ∨ ∃ idle, Age ttl s k v idle ∧ Kept ttl k idle (op :: ops) := by
  cases op with
  | tick n =>
    rw [or_iff_right (by simp)]
    constructor
    · rintro ⟨idle, ⟨hidle, deadline, hentry, hage⟩, hkept⟩
      have hbound := h k v deadline hentry
      change deadline + idle = s.now + n + ttl at hage
      obtain ⟨before, rfl⟩ : ∃ before, idle = before + n := ⟨idle - n, by omega⟩
      exact ⟨before, ⟨by omega, deadline, hentry, by omega⟩, hidle, hkept⟩
    · rintro ⟨idle, ⟨-, deadline, hentry, hage⟩, hidle, hkept⟩
      refine ⟨idle + n, ⟨hidle, deadline, hentry, ?_⟩, hkept⟩
      change deadline + (idle + n) = s.now + n + ttl
      omega
  | put k' v' =>
    by_cases hk : k = k'
    · subst hk
      rw [or_iff_left (by rintro ⟨idle, -, hne, -⟩; exact hne rfl)]
      constructor
      · rintro ⟨idle, hage, hkept⟩
        obtain ⟨rfl, rfl, -⟩ := (age_written v idle).1 hage
        exact ⟨rfl, hkept⟩
      · rintro ⟨heq, hkept⟩
        obtain ⟨-, rfl⟩ := Op.put.inj heq
        exact ⟨0, (age_written _ 0).2 ⟨rfl, rfl, kept_positive hkept⟩, hkept⟩
    · rw [or_iff_right (by rintro ⟨heq, -⟩; exact hk (Op.put.inj heq).1.symm)]
      constructor
      · rintro ⟨idle, hage, hkept⟩
        exact ⟨idle, (age_other hk _ idle).1 hage, Ne.symm hk, hkept⟩
      · rintro ⟨idle, hage, -, hkept⟩
        exact ⟨idle, (age_other hk _ idle).2 hage, hkept⟩
  | touch k' =>
    rw [or_iff_right (by simp)]
    by_cases hk : k = k'
    · subst hk
      cases hlive : s.live k with
      | none =>
        have hnone : ∀ v idle, ¬ Age ttl s k v idle := fun w idle hage => by
          have hsome := (live_iff_age h).2 ⟨idle, hage⟩
          rw [hlive] at hsome
          cases hsome
        have hsame : apply ttl s (.touch k) = s := by
          unfold apply
          dsimp only
          rw [hlive]
        rw [hsame]
        exact ⟨fun ⟨idle, hage, _⟩ => absurd hage (hnone v idle), fun ⟨idle, hage, _⟩ => absurd hage (hnone v idle)⟩
      | some w =>
        obtain ⟨old, hold⟩ := (live_iff_age h).1 hlive
        have hsame : apply ttl s (.touch k) = s.write k (some (w, s.now + ttl)) := by
          unfold apply
          dsimp only
          rw [hlive]
        have hzero : ∀ idle, Kept ttl k idle (.touch k :: ops) ↔ Kept ttl k 0 ops := fun idle => by rw [Kept, if_pos rfl]
        rw [hsame]
        constructor
        · rintro ⟨idle, hage, hkept⟩
          obtain ⟨rfl, rfl, -⟩ := (age_written v idle).1 hage
          exact ⟨old, hold, (hzero old).2 hkept⟩
        · rintro ⟨idle, hage, hkept⟩
          have hkept := (hzero idle).1 hkept
          obtain rfl : v = w := Option.some.inj (((live_iff_age h).2 ⟨idle, hage⟩).symm.trans hlive)
          exact ⟨0, (age_written _ 0).2 ⟨rfl, rfl, kept_positive hkept⟩, hkept⟩
    · have hsame : ∀ idle, Age ttl (apply ttl s (.touch k')) k v idle ↔ Age ttl s k v idle := by
        intro idle
        unfold apply
        dsimp only
        cases s.live k' with
        | none => exact Iff.rfl
        | some w => exact age_other hk _ idle
      have hother : ∀ idle, Kept ttl k idle (.touch k' :: ops) ↔ Kept ttl k idle ops := fun idle => by
        rw [Kept, if_neg (Ne.symm hk)]
      simp only [hsame, hother]
  | drop k' =>
    rw [or_iff_right (by simp)]
    by_cases hk : k = k'
    · subst hk
      constructor
      · rintro ⟨idle, ⟨-, deadline, hentry, -⟩, -⟩
        rw [apply, write_self] at hentry
        cases hentry
      · rintro ⟨idle, -, hne, -⟩
        exact absurd rfl hne
    · constructor
      · rintro ⟨idle, hage, hkept⟩
        exact ⟨idle, (age_other hk _ idle).1 hage, Ne.symm hk, hkept⟩
      · rintro ⟨idle, hage, -, hkept⟩
        exact ⟨idle, (age_other hk _ idle).2 hage, hkept⟩

/-- An entry lives after some operations where it was written by one of them or is old enough, and kept since. -/
theorem applyAll_live (h : Bounded ttl s) (ops : List (Op κ ν)) : (applyAll ttl ops s).live k = some v ↔
    (∃ before after, ops = before ++ .put k v :: after ∧ Kept ttl k 0 after) ∨
      ∃ idle, Age ttl s k v idle ∧ Kept ttl k idle ops := by
  induction ops generalizing s with
  | nil =>
    rw [applyAll, List.foldl_nil, live_iff_age h, or_iff_right (by simp)]
    exact ⟨fun ⟨idle, hage⟩ => ⟨idle, hage, hage.1⟩, fun ⟨idle, hage, _⟩ => ⟨idle, hage⟩⟩
  | cons op ops ih =>
    have hlater : (∃ before after, op :: ops = before ++ .put k v :: after ∧ Kept ttl k 0 after) ↔
        (op = .put k v ∧ Kept ttl k 0 ops) ∨ ∃ before after, ops = before ++ .put k v :: after ∧ Kept ttl k 0 after := by
      constructor
      · rintro ⟨before, after, hsplit, hkept⟩
        cases before with
        | nil =>
          obtain ⟨rfl, rfl⟩ := List.cons.inj hsplit
          exact .inl ⟨rfl, hkept⟩
        | cons first before => exact .inr ⟨before, after, (List.cons.inj hsplit).2, hkept⟩
      · rintro (⟨rfl, hkept⟩ | ⟨before, after, rfl, hkept⟩)
        · exact ⟨[], ops, rfl, hkept⟩
        · exact ⟨op :: before, after, rfl, hkept⟩
    rw [applyAll, List.foldl_cons, ← applyAll, ih (apply_bounded h op), age_step h, hlater, or_assoc, or_left_comm]

omit [DecidableEq κ] in
theorem empty_bounded : Bounded ttl (Store.empty : Store κ ν) := nofun

theorem live_iff (ops : List (Op κ ν)) : (applyAll ttl ops Store.empty).live k = some v ↔
    ∃ before after, ops = before ++ .put k v :: after ∧ Kept ttl k 0 after := by
  rw [applyAll_live empty_bounded]
  refine or_iff_left ?_
  rintro ⟨idle, ⟨-, deadline, hentry, -⟩, -⟩
  cases hentry

end Mports.ExpiringStore
