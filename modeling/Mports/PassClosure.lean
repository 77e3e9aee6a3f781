import Mathlib.Data.Finset.Card
import Mathlib.Data.Finset.Dedup
import Mathlib.Logic.Function.Iterate
import Mathlib.Logic.Relation

set_option autoImplicit false

namespace Mports.PassClosure
open Relation

variable {α : Type}

/-- A pass keeps what is listed, follows each arrow from it, and adds only what arrows lead to. -/
structure IsPass (R : α → α → Prop) (pass : List α → List α) : Prop where
  keeps : ∀ xs, ∀ x ∈ xs, x ∈ pass xs
  follows : ∀ xs, ∀ x ∈ xs, ∀ y, R x y → y ∈ pass xs
  reached : ∀ xs, ∀ y ∈ pass xs, ∃ x ∈ xs, ReflTransGen R x y

def ClosedUnder (R : α → α → Prop) (xs : List α) : Prop := ∀ x ∈ xs, ∀ y, R x y → y ∈ xs

variable {R : α → α → Prop} {pass : List α → List α}

theorem ClosedUnder.mem_of_reached {xs : List α} (h : ClosedUnder R xs) {x y : α} (hx : x ∈ xs) (hxy : ReflTransGen R x y) :
    y ∈ xs := by
  induction hxy with
  | refl => exact hx
  | tail _ hstep ih => exact h _ ih _ hstep

theorem iterate_keeps (hp : IsPass R pass) (n : ℕ) (xs : List α) : ∀ x ∈ xs, x ∈ pass^[n] xs := by
  induction n with
  | zero => exact fun x hx => hx
  | succ n ih =>
    intro x hx
    rw [Function.iterate_succ_apply']
    exact hp.keeps _ x (ih x hx)

theorem iterate_reached (hp : IsPass R pass) (n : ℕ) (xs : List α) : ∀ y ∈ pass^[n] xs, ∃ x ∈ xs, ReflTransGen R x y := by
  induction n with
  | zero => exact fun y hy => ⟨y, hy, .refl⟩
  | succ n ih =>
    intro y hy
    rw [Function.iterate_succ_apply'] at hy
    obtain ⟨z, hz, hzy⟩ := hp.reached _ y hy
    obtain ⟨x, hx, hxz⟩ := ih z hz
    exact ⟨x, hx, hxz.trans hzy⟩

variable [DecidableEq α] {sources : List α}

theorem iterate_closed_or (hp : IsPass R pass) (hsource : ∀ x y, R x y → x ∈ sources) (n : ℕ) (xs : List α) :
    ClosedUnder R (pass^[n] xs) ∨ n + 1 ≤ (sources.toFinset.filter (· ∈ pass^[n] xs)).card := by
  induction n with
  | zero =>
    by_cases hclosed : ClosedUnder R xs
    · exact .inl hclosed
    · simp only [ClosedUnder, not_forall] at hclosed
      obtain ⟨x, hx, y, hxy, -⟩ := hclosed
      have hmem : x ∈ sources.toFinset.filter (· ∈ xs) :=
        Finset.mem_filter.2 ⟨List.mem_toFinset.2 (hsource x y hxy), hx⟩
      exact .inr (Finset.card_pos.2 ⟨x, hmem⟩)
  | succ n ih =>
    rw [Function.iterate_succ_apply']
    by_cases hclosed : ClosedUnder R (pass (pass^[n] xs))
    · exact .inl hclosed
    have hbefore : ¬ ClosedUnder R (pass^[n] xs) := by
      intro hn
      refine hclosed fun x hx y hxy => ?_
      obtain ⟨z, hz, hzx⟩ := hp.reached _ x hx
      exact hp.follows _ x (hn.mem_of_reached hz hzx) y hxy
    simp only [ClosedUnder, not_forall] at hclosed
    obtain ⟨x, hx, y, hxy, hy⟩ := hclosed
    have hnew : x ∉ pass^[n] xs := fun hold => hy (hp.follows _ x hold y hxy)
    have hlt : (sources.toFinset.filter (· ∈ pass^[n] xs)).card < (sources.toFinset.filter (· ∈ pass (pass^[n] xs))).card := by
      refine Finset.card_lt_card ((Finset.ssubset_iff_of_subset ?_).2 ⟨x, ?_, ?_⟩)
      · intro z hz
        obtain ⟨hzs, hzn⟩ := Finset.mem_filter.1 hz
        exact Finset.mem_filter.2 ⟨hzs, hp.keeps _ z hzn⟩
      · exact Finset.mem_filter.2 ⟨List.mem_toFinset.2 (hsource x y hxy), hx⟩
      · exact fun h => hnew (Finset.mem_filter.1 h).2
    have := ih.resolve_left hbefore
    omega

theorem iterate_closed (hp : IsPass R pass) (hsource : ∀ x y, R x y → x ∈ sources) (xs : List α) :
    ClosedUnder R (pass^[sources.length] xs) := by
  rcases iterate_closed_or hp hsource sources.length xs with hclosed | hcard
  · exact hclosed
  · have hle := (Finset.card_filter_le sources.toFinset (· ∈ pass^[sources.length] xs)).trans (List.toFinset_card_le sources)
    omega

theorem mem_iterate (hp : IsPass R pass) (hsource : ∀ x y, R x y → x ∈ sources) (xs : List α) (y : α) :
    y ∈ pass^[sources.length] xs ↔ ∃ x ∈ xs, ReflTransGen R x y := by
  constructor
  · exact iterate_reached hp sources.length xs y
  · rintro ⟨x, hx, hxy⟩
    exact (iterate_closed hp hsource xs).mem_of_reached (iterate_keeps hp sources.length xs x hx) hxy

end Mports.PassClosure
