import Mathlib.Data.List.Induction

set_option autoImplicit false

namespace Mports.FailingRuns
variable {ε α β σ : Type} {stop : ε → Prop}

/-- A run stops in a state with `stop`, or goes on with `post`. -/
def Ends (stop : ε → Prop) (post : α → Prop) : Except ε α → Prop
  | .error e => stop e
  | .ok a => post a

@[simp] theorem ends_ok {post : α → Prop} {a : α} : Ends stop post (.ok a) ↔ post a := Iff.rfl

@[simp] theorem ends_error {post : α → Prop} {e : ε} : Ends stop post (.error e) ↔ stop e := Iff.rfl

namespace Ends

theorem mono {stop' : ε → Prop} {post post' : α → Prop} {r : Except ε α} (h : Ends stop post r)
    (hstop : ∀ e, stop e → stop' e) (hpost : ∀ a, post a → post' a) : Ends stop' post' r := by
  cases r with
  | error e => exact hstop e h
  | ok a => exact hpost a h

theorem and {stop' : ε → Prop} {post post' : α → Prop} {r : Except ε α} (h : Ends stop post r) (h' : Ends stop' post' r) :
    Ends (fun e => stop e ∧ stop' e) (fun a => post a ∧ post' a) r := by
  cases r with
  | error e => exact ⟨h, h'⟩
  | ok a => exact ⟨h, h'⟩

theorem bind {mid : α → Prop} {post : β → Prop} {r : Except ε α} {f : α → Except ε β} (h : Ends stop mid r)
    (hf : ∀ a, mid a → Ends stop post (f a)) : Ends stop post (r >>= f) := by
  cases r with
  | error e => exact h
  | ok a => exact hf a h

theorem foldlM (inv : List α → σ → Prop) {step : σ → α → Except ε σ} {xs : List α}
    (hstep : ∀ before a after, xs = before ++ a :: after → ∀ st, inv before st →
      Ends stop (inv (before ++ [a])) (step st a)) {st : σ} (hst : inv [] st) :
    Ends stop (inv xs) (xs.foldlM step st) := by
  induction xs using List.reverseRecOn with
  | nil => exact hst
  | append_singleton xs x ih =>
    rw [List.foldlM_append]
    refine (ih fun before a after hxs st h => ?_).bind fun st h => ?_
    · exact hstep before a (after ++ [x]) (by rw [hxs, List.append_assoc, List.cons_append]) st h
    · rw [List.foldlM_cons]
      exact (hstep xs x [] rfl st h).bind fun st h => h

theorem ok {post : α → Prop} {r : Except ε α} (h : Ends (fun _ => False) post r) : ∃ a, r = .ok a ∧ post a := by
  cases r with
  | error e => exact h.elim
  | ok a => exact ⟨a, rfl, h⟩

end Ends
end Mports.FailingRuns
