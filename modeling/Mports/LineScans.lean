import Mathlib.Data.List.Basic

set_option autoImplicit false

namespace Mports.LineScans

variable {σ α β : Type} (step : σ → α → σ × List β)

def scan : σ → List α → σ × List β
  | s, [] => (s, [])
  | s, a :: as =>
    let rest := scan (step s a).1 as
    (rest.1, (step s a).2 ++ rest.2)

@[simp] theorem scan_nil (s : σ) : scan step s [] = (s, []) := rfl

theorem scan_cons (s : σ) (a : α) (as : List α) :
    scan step s (a :: as) = ((scan step (step s a).1 as).1, (step s a).2 ++ (scan step (step s a).1 as).2) := rfl

theorem scan_append (s : σ) (as bs : List α) :
    scan step s (as ++ bs) =
      ((scan step (scan step s as).1 bs).1, (scan step s as).2 ++ (scan step (scan step s as).1 bs).2) := by
  induction as generalizing s with
  | nil => rfl
  | cons a as ih => rw [List.cons_append, scan_cons, ih, scan_cons, List.append_assoc]

theorem scan_steady {s : σ} {as : List α} (f : α → List β) (h : ∀ a ∈ as, step s a = (s, f a)) :
    scan step s as = (s, as.flatMap f) := by
  induction as with
  | nil => rfl
  | cons a as ih =>
    rw [scan_cons, h a List.mem_cons_self, ih fun b hb => h b (List.mem_cons_of_mem _ hb), List.flatMap_cons]

theorem scan_forall {P : β → Prop} (h : ∀ s a, ∀ b ∈ (step s a).2, P b) (s : σ) (as : List α) :
    ∀ b ∈ (scan step s as).2, P b := by
  induction as generalizing s with
  | nil => exact nofun
  | cons a as ih => exact List.forall_mem_append.2 ⟨h s a, ih (step s a).1⟩

section One
variable (emit : σ → α → β) (next : σ → α → σ)

theorem scan_one_length (h : ∀ s a, step s a = (next s a, [emit s a])) (s : σ) (as : List α) :
    (scan step s as).2.length = as.length := by
  induction as generalizing s with
  | nil => rfl
  | cons a as ih => rw [scan_cons, h, List.singleton_append, List.length_cons, ih, List.length_cons]

theorem scan_one_get (h : ∀ s a, step s a = (next s a, [emit s a])) (s : σ) (pre : List α) (a : α) (post : List α) :
    (scan step s (pre ++ a :: post)).2[pre.length]? = some (emit (scan step s pre).1 a) := by
  have hlength := scan_one_length step emit next h s pre
  rw [scan_append, List.getElem?_append_right (Nat.le_of_eq hlength), hlength, Nat.sub_self, scan_cons, h]
  rfl

end One
end Mports.LineScans
