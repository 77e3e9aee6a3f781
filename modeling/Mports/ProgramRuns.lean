import Mports.StatementPrograms

set_option autoImplicit false

namespace Mports.ProgramRuns
open StatementPrograms

variable {S : Signature} {α β σ : Type}

section Alone
variable (answers : σ → (o : S.Op) → Except S.Exn (S.Res o) → σ → Prop)

def alone (needs : σ → S.Op → Prop) : Setting S σ where
  rely := fun _ s t => s = t
  answers := answers
  needs := needs
  rely_refl := fun _ _ => rfl
  rely_trans := fun hst htu => hst.trans htu

/-- The program has come from the first state to the second and is left with the rest. -/
inductive Runs : Prog S α → σ → Prog S α → σ → Prop where
  | refl (p : Prog S α) (s : σ) : Runs p s p s
  | step {o : S.Op} {k : Except S.Exn (S.Res o) → Prog S α} {s u t : σ} {q : Prog S α}
      {r : Except S.Exn (S.Res o)} (answer : answers s o r u) (rest : Runs (k r) u q t) :
      Runs (.call o k) s q t

variable {answers} {needs : σ → S.Op → Prop} {post : Exit S α → σ → Prop}

theorem Runs.outline {p q : Prog S α} {s t : σ} (hrun : Runs answers p s q t)
    (h : Outline (alone answers needs) post p s) : Outline (alone answers needs) post q t := by
  induction hrun with
  | refl => exact h
  | step answer _ ih => exact ih (h.answer answer)

theorem Runs.needed {p : Prog S α} {s t : σ} {o : S.Op} {k : Except S.Exn (S.Res o) → Prog S α}
    (hrun : Runs answers p s (.call o k) t) (h : Outline (alone answers needs) post p s) : needs t o :=
  (hrun.outline h).needs

theorem Runs.returned {p : Prog S α} {s t : σ} {a : α} (hrun : Runs answers p s (.ret a) t)
    (h : Outline (alone answers needs) post p s) : post (.ret a) t :=
  (hrun.outline h).ended_ret

theorem outline_ret {needs : σ → S.Op → Prop} {a : α} {s : σ} (h : post (.ret a) s) :
    Outline (alone answers needs) post (.ret a) s := by
  intro t ht
  cases ht
  exact h

theorem outline_raise {needs : σ → S.Op → Prop} {e : S.Exn} {s : σ} (h : post (.raise e) s) :
    Outline (alone answers needs) post (.raise e) s := by
  intro t ht
  cases ht
  exact h

theorem outline_issue {o : S.Op} {post : Exit S (S.Res o) → σ → Prop} {s : σ} (hneeds : needs s o)
    (hok : ∀ r u, answers s o (.ok r) u → post (.ret r) u)
    (herror : ∀ e u, answers s o (.error e) u → post (.raise e) u) :
    Outline (alone answers needs) post (Prog.issue o) s := by
  refine .issue fun t ht => ?_
  cases ht
  refine ⟨hneeds, fun r u hr v hv => ?_, fun e u he v hv => ?_⟩
  · cases hv
    exact hok r u hr
  · cases hv
    exact herror e u he

end Alone

section Determined
variable (f : σ → (o : S.Op) → Except S.Exn (S.Res o) × σ)

/-- The run in which every statement is answered by `f`. -/
def exec : Prog S α → σ → Exit S α × σ
  | .ret a, s => (.ret a, s)
  | .raise e, s => (.raise e, s)
  | .exit c, s => (.exit c, s)
  | .call o k, s => exec (k (f s o).1) (f s o).2

def returned : Exit S α → Bool
  | .ret _ => true
  | _ => false

def advance : ℕ → Prog S α → σ → Prog S α × σ
  | n + 1, .call o k, s => advance n (k (f s o).1) (f s o).2
  | _, p, s => (p, s)

variable {f}

theorem runs_advance {answers : σ → (o : S.Op) → Except S.Exn (S.Res o) → σ → Prop}
    (hf : ∀ s o, answers s o (f s o).1 (f s o).2) (n : ℕ) (p : Prog S α) (s : σ) :
    Runs answers p s (advance f n p s).1 (advance f n p s).2 := by
  induction n generalizing p s with
  | zero => exact .refl p s
  | succ n ih =>
    cases p with
    | call o k => exact .step (hf s o) (ih _ _)
    | _ => exact .refl _ s

theorem runs_exec {answers : σ → (o : S.Op) → Except S.Exn (S.Res o) → σ → Prop}
    (hf : ∀ s o, answers s o (f s o).1 (f s o).2) (p : Prog S α) (s : σ) (h : returned (exec f p s).1 = true) :
    ∃ a, Runs answers p s (.ret a) (exec f p s).2 := by
  induction p generalizing s with
  | ret a => exact ⟨a, .refl _ s⟩
  | raise | exit => cases h
  | call o k ih =>
    obtain ⟨a, hrun⟩ := ih _ _ h
    exact ⟨a, .step (hf s o) hrun⟩

variable (f) in
def Attains (Q : α → σ → Prop) : Prog S α → σ → Prop
  | .ret a, s => Q a s
  | .call o k, s => Attains Q (k (f s o).1) (f s o).2
  | _, _ => False

theorem attains_iff {Q : α → σ → Prop} (p : Prog S α) (s : σ) :
    Attains f Q p s ↔ ∃ a t, exec f p s = (.ret a, t) ∧ Q a t := by
  induction p generalizing s with
  | ret a => exact ⟨fun h => ⟨a, s, rfl, h⟩, fun ⟨b, t, heq, h⟩ => by cases heq; exact h⟩
  | raise | exit => exact ⟨False.elim, fun ⟨b, t, heq, _⟩ => by cases heq⟩
  | call o k ih => exact ih _ _

@[simp] theorem attains_ret {Q : α → σ → Prop} {a : α} {s : σ} : Attains f Q (.ret a) s ↔ Q a s := Iff.rfl

@[simp] theorem attains_pure {Q : α → σ → Prop} {a : α} {s : σ} : Attains f Q (pure a) s ↔ Q a s := Iff.rfl

@[simp] theorem attains_raise {Q : α → σ → Prop} {e : S.Exn} {s : σ} : Attains f Q (.raise e) s ↔ False := Iff.rfl

@[simp] theorem attains_bind {Q : β → σ → Prop} {p : Prog S α} {g : α → Prog S β} {s : σ} :
    Attains f Q (p >>= g) s ↔ Attains f (fun a => Attains f Q (g a)) p s := by
  induction p generalizing s with
  | call o k ih => exact ih _
  | _ => exact Iff.rfl

theorem attains_issue {o : S.Op} {Q : S.Res o → σ → Prop} {r : S.Res o} {s : σ} (h : (f s o).1 = .ok r) :
    Attains f Q (Prog.issue o) s ↔ Q r (f s o).2 := by
  unfold Prog.issue Attains
  rw [h]
  exact Iff.rfl

theorem attains_when {c : Prop} [Decidable c] {Q : Unit → σ → Prop} {p : Prog S Unit} {s : σ} :
    Attains f Q (Prog.when c p) s ↔ if c then Attains f Q p s else Q () s := by
  unfold Prog.when
  split <;> exact Iff.rfl

theorem attains_tryCatch {Q : α → σ → Prop} {p : Prog S α} {handler : S.Exn → Prog S α} {s : σ}
    (hraise : ∀ e t, ¬ Attains f Q (handler e) t) : Attains f Q (p.tryCatch handler) s ↔ Attains f Q p s := by
  induction p generalizing s with
  | ret | exit => exact Iff.rfl
  | raise e => exact iff_of_false (hraise e s) id
  | call o k ih => exact ih _

theorem Attains.mono {Q Q' : α → σ → Prop} {p : Prog S α} {s : σ} (h : Attains f Q p s)
    (hQ : ∀ a t, Q a t → Q' a t) : Attains f Q' p s := by
  induction p generalizing s with
  | ret a => exact hQ a s h
  | call o k ih => exact ih _ h
  | _ => exact h

theorem attains_congr {Q Q' : α → σ → Prop} (hQ : ∀ a t, Q a t ↔ Q' a t) {p : Prog S α} {s : σ} :
    Attains f Q p s ↔ Attains f Q' p s :=
  ⟨fun h => h.mono fun a t => (hQ a t).1, fun h => h.mono fun a t => (hQ a t).2⟩

theorem attains_forEach {g : β → Prog S Unit} {next : β → σ → σ}
    (body : ∀ (Q : Unit → σ → Prop) x s, Attains f Q (g x) s ↔ Q () (next x s)) {Q : Unit → σ → Prop} {xs : List β}
    {s : σ} : Attains f Q (Prog.forEach xs g) s ↔ Q () (xs.foldl (fun s x => next x s) s) := by
  induction xs generalizing s with
  | nil => exact Iff.rfl
  | cons x xs ih =>
    have hbind : Prog.forEach (x :: xs) g = g x >>= fun _ => Prog.forEach xs g := rfl
    rw [hbind, attains_bind, body, ih, List.foldl_cons]

end Determined
end Mports.ProgramRuns
