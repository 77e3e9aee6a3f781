import Mathlib.Data.List.Basic

set_option autoImplicit false

/-! Finite runs of a labelled transition system and the induction rules for them. -/
namespace Mports.LabelledRuns

variable {σ ε : Type} {step : σ → ε → σ → Prop} {s₀ : σ}

/-- A run from `s₀`. Its history lists every step's state and label, newest first. -/
inductive Run (step : σ → ε → σ → Prop) (s₀ : σ) : List (σ × ε) → σ → Prop where
  | start : Run step s₀ [] s₀
  | next {h : List (σ × ε)} {s t : σ} {e : ε} (run : Run step s₀ h s) (last : step s e t) :
      Run step s₀ ((s, e) :: h) t

/-- Every step of the history was taken in a state and with a label `ok` accepts. -/
def AllSteps (ok : σ → ε → Prop) (h : List (σ × ε)) : Prop := ∀ x ∈ h, ok x.1 x.2

@[simp] theorem allSteps_nil (ok : σ → ε → Prop) : AllSteps ok [] := by
  simp [AllSteps]

@[simp] theorem allSteps_cons (ok : σ → ε → Prop) (x : σ × ε) (h : List (σ × ε)) :
    AllSteps ok (x :: h) ↔ ok x.1 x.2 ∧ AllSteps ok h := by
  simp [AllSteps]

theorem Run.invariant {K : σ → ε → Prop} {h : List (σ × ε)} {t : σ} (I : σ → Prop)
    (run : Run step s₀ h t) (all : AllSteps K h) (start : I s₀)
    (keep : ∀ s e t, I s → step s e t → K s e → I t) : I t := by
  induction run with
  | start => exact start
  | next _ last ih =>
    obtain ⟨hok, hall⟩ := (allSteps_cons K _ _).1 all
    exact keep _ _ _ (ih hall) last hok

/-- Where a step from a good state reaches a good one just if it is one of `ok`, all states
of a run are good just if all its steps are of `ok`. `J` is known anyway. -/
theorem Run.always_iff {ok : σ → ε → Prop} {h : List (σ × ε)} {t : σ} (J I : σ → Prop)
    (run : Run step s₀ h t) (known : J s₀) (start : I s₀)
    (keep : ∀ s e t, J s → step s e t → J t)
    (exact : ∀ s e t, J s → I s → step s e t → (I t ↔ ok s e)) :
    (I t ∧ ∀ x ∈ h, I x.1) ↔ AllSteps ok h := by
  have reached : J t ∧ ((I t ∧ ∀ x ∈ h, I x.1) ↔ AllSteps ok h) := by
    induction run with
    | start => exact ⟨known, by simp [start]⟩
    | @next h s t e run last ih =>
      obtain ⟨hJ, hh⟩ := ih
      refine ⟨keep _ _ _ hJ last, ?_⟩
      rw [allSteps_cons, ← hh]
      constructor
      · rintro ⟨ht, hbefore⟩
        have hs : I s := hbefore (s, e) List.mem_cons_self
        exact ⟨(exact _ _ _ hJ hs last).1 ht, hs, fun x hx => hbefore x (List.mem_cons_of_mem _ hx)⟩
      · rintro ⟨hok, hs, hbefore⟩
        refine ⟨(exact _ _ _ hJ hs last).2 hok, fun x hx => ?_⟩
        rcases List.mem_cons.1 hx with rfl | hx
        · exact hs
        · exact hbefore x hx
  exact reached.2

theorem Run.before {h : List (σ × ε)} {t : σ} (run : Run step s₀ h t) {x : σ × ε}
    (hx : x ∈ h) : ∃ h', Run step s₀ h' x.1 ∧ h' <:+ h := by
  induction run with
  | start => simp at hx
  | @next h s t e run _ ih =>
    rcases List.mem_cons.1 hx with rfl | hx
    · exact ⟨h, run, List.suffix_cons _ _⟩
    · obtain ⟨h', hr, hs⟩ := ih hx
      exact ⟨h', hr, hs.trans (List.suffix_cons _ _)⟩

theorem AllSteps.suffix {ok : σ → ε → Prop} {h h' : List (σ × ε)} (all : AllSteps ok h)
    (hs : h' <:+ h) : AllSteps ok h' :=
  fun x hx => all x (hs.subset hx)

theorem Run.trans {h h' : List (σ × ε)} {s t : σ} (run : Run step s₀ h s)
    (rest : Run step s h' t) : Run step s₀ (h' ++ h) t := by
  induction rest with
  | start => exact run
  | next _ last ih => exact .next ih last

section Execution
variable (next : σ → ε → Option σ)

def history : σ → List ε → List (σ × ε) → Option (List (σ × ε) × σ)
  | s, [], h => some (h, s)
  | s, e :: es, h => (next s e).bind fun t => history t es ((s, e) :: h)

theorem run_of_history {w : List ε} {s t : σ} {h h' : List (σ × ε)}
    (run : Run (fun s e t => next s e = some t) s₀ h s)
    (hh : history next s w h = some (h', t)) :
    Run (fun s e t => next s e = some t) s₀ h' t := by
  induction w generalizing s h with
  | nil =>
    simp only [history, Option.some.injEq, Prod.mk.injEq] at hh
    obtain ⟨rfl, rfl⟩ := hh
    exact run
  | cons e es ih =>
    cases hn : next s e with
    | none => simp [history, hn] at hh
    | some u => exact ih (.next run hn) (by simpa [history, hn] using hh)

theorem reached_of_history {w : List ε} {s : σ} {f : List (σ × ε) × σ → Bool}
    (h : (history next s w []).any f = true) :
    ∃ h' t, Run (fun s e t => next s e = some t) s h' t ∧ f (h', t) = true := by
  obtain ⟨⟨h', t⟩, hh, hf⟩ := (Option.any_eq_true _ _).1 h
  exact ⟨h', t, run_of_history next .start hh, hf⟩

end Execution
end Mports.LabelledRuns
