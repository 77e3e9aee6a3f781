import Mathlib.Order.Basic

set_option autoImplicit false

/-!
Programs that meet the rest of the system one statement at a time. Each
statement is answered by a value or by an exception, and between two statements
the shared state may move. `Outline` is the rely-guarantee proof outline of such
a program: what it needs where it issues a statement and what it leaves behind.
-/
namespace Mports.StatementPrograms

structure Signature where
  Op : Type
  Res : Op → Type
  Exn : Type
  Code : Type

variable {S : Signature} {α β σ : Type}

/-- A program is the tree of its statements, branching on every answer. -/
inductive Prog (S : Signature) (α : Type) where
  | ret (a : α)
  | raise (e : S.Exn)
  | exit (code : S.Code)
  | call (o : S.Op) (k : Except S.Exn (S.Res o) → Prog S α)

namespace Prog

def bind : Prog S α → (α → Prog S β) → Prog S β
  | .ret a, f => f a
  | .raise e, _ => .raise e
  | .exit c, _ => .exit c
  | .call o k, f => .call o fun r => bind (k r) f

instance : Monad (Prog S) where
  pure := .ret
  bind := bind

def issue (o : S.Op) : Prog S (S.Res o) :=
  .call o fun
    | .ok r => .ret r
    | .error e => .raise e

/-- `eval { ... }` with a handler: it catches what is raised, never an exit. -/
def tryCatch : Prog S α → (S.Exn → Prog S α) → Prog S α
  | .ret a, _ => .ret a
  | .raise e, h => h e
  | .exit c, _ => .exit c
  | .call o k, h => .call o fun r => tryCatch (k r) h

def forEach : List β → (β → Prog S Unit) → Prog S Unit
  | [], _ => .ret ()
  | x :: xs, f => (f x).bind fun _ => forEach xs f

/-- `p if c;` -/
def when (c : Prop) [Decidable c] (p : Prog S Unit) : Prog S Unit := if c then p else .ret ()

@[simp] theorem ret_bind (a : α) (f : α → Prog S β) : (ret a).bind f = f a := rfl

@[simp] theorem pure_bind' (a : α) (f : α → Prog S β) :
    (Bind.bind (Pure.pure a : Prog S α) f) = f a := rfl

theorem bind_eq (p : Prog S α) (f : α → Prog S β) : p >>= f = p.bind f := rfl

theorem pure_eq (a : α) : (Pure.pure a : Prog S α) = .ret a := rfl

def Ended : Prog S α → Prop
  | .call _ _ => False
  | _ => True

instance : (p : Prog S α) → Decidable p.Ended
  | .ret _ | .raise _ | .exit _ => .isTrue trivial
  | .call _ _ => .isFalse id

end Prog

inductive Exit (S : Signature) (α : Type) where
  | ret (a : α)
  | raise (e : S.Exn)
  | exit (code : S.Code)

def Prog.pending : Prog S α → Option S.Op
  | .call o _ => some o
  | _ => none

@[simp] theorem Prog.pending_bind {p : Prog S α} {f : α → Prog S β} {o : S.Op}
    (h : p.pending = some o) : (p >>= f).pending = some o := by
  cases p with
  | call o' k => exact h
  | _ => cases h

@[simp] theorem Prog.pending_tryCatch {p : Prog S α} {handler : S.Exn → Prog S α} {o : S.Op}
    (h : p.pending = some o) : (p.tryCatch handler).pending = some o := by
  cases p with
  | call o' k => exact h
  | _ => cases h

section Uses
variable (P : S.Op → Prop) (A : (o : S.Op) → Except S.Exn (S.Res o) → Prop)

/-- Every statement the program can ever issue satisfies `P`, as long as every
answer it gets is one of `A`. -/
def Uses : Prog S α → Prop
  | .call o k => P o ∧ ∀ r, A o r → Uses (k r)
  | _ => True

namespace Uses
variable {P A}

@[simp] theorem ret (a : α) : Uses P A (.ret a) := trivial
@[simp] theorem pure (a : α) : Uses P A (Pure.pure a : Prog S α) := trivial
@[simp] theorem raise (e : S.Exn) : Uses P A (.raise e : Prog S α) := trivial
@[simp] theorem exit (c : S.Code) : Uses P A (.exit c : Prog S α) := trivial

theorem issue {o : S.Op} (h : P o) : Uses P A (Prog.issue o) :=
  ⟨h, fun r _ => by cases r <;> trivial⟩

theorem bind {p : Prog S α} {f : α → Prog S β} (hp : Uses P A p) (hf : ∀ a, Uses P A (f a)) :
    Uses P A (p >>= f) := by
  induction p with
  | ret a => exact hf a
  | raise e => trivial
  | exit c => trivial
  | call o k ih => exact ⟨hp.1, fun r hr => ih r (hp.2 r hr)⟩

theorem tryCatch {p : Prog S α} {handler : S.Exn → Prog S α} (hp : Uses P A p)
    (hh : ∀ e, Uses P A (handler e)) : Uses P A (p.tryCatch handler) := by
  induction p with
  | ret a => trivial
  | raise e => exact hh e
  | exit c => trivial
  | call o k ih => exact ⟨hp.1, fun r hr => ih r (hp.2 r hr)⟩

theorem forEach {xs : List β} {f : β → Prog S Unit} (hf : ∀ x ∈ xs, Uses P A (f x)) :
    Uses P A (Prog.forEach xs f) := by
  induction xs with
  | nil => trivial
  | cons x xs ih =>
    exact bind (hf x (by simp)) fun _ => ih fun y hy => hf y (List.mem_cons_of_mem _ hy)

theorem ite {c : Prop} [Decidable c] {p q : Prog S α} (hp : c → Uses P A p)
    (hq : ¬ c → Uses P A q) : Uses P A (if c then p else q) := by
  split
  · exact hp ‹_›
  · exact hq ‹_›

theorem when {c : Prop} [Decidable c] {p : Prog S Unit} (hp : c → Uses P A p) :
    Uses P A (Prog.when c p) :=
  ite hp fun _ => trivial

theorem all (p : Prog S α) : Uses (fun _ => True) A p := by
  induction p with
  | call o k ih => exact ⟨True.intro, fun r _ => ih r⟩
  | _ => trivial

theorem mono {P' : S.Op → Prop} {p : Prog S α} (hp : Uses P A p) (h : ∀ o, P o → P' o) :
    Uses P' A p := by
  induction p with
  | call o k ih => exact ⟨h o hp.1, fun r hr => ih r (hp.2 r hr)⟩
  | _ => trivial

theorem weaken {A' : (o : S.Op) → Except S.Exn (S.Res o) → Prop} {p : Prog S α} (hp : Uses P A p)
    (h : ∀ o r, A' o r → A o r) : Uses P A' p := by
  induction p with
  | call o k ih => exact ⟨hp.1, fun r hr => ih r (hp.2 r (h o r hr))⟩
  | _ => trivial

end Uses
end Uses

section Follows
variable (N : (o : S.Op) → Except S.Exn (S.Res o) → Option S.Op → Prop)

/-- Whenever the program has issued a statement and got its answer, `N` holds of the
statement it issues next. -/
def Follows : Prog S α → Prop
  | .call o k => ∀ r, N o r (k r).pending ∧ Follows (k r)
  | _ => True

namespace Follows
variable {N}

/-- `N` asks nothing of what comes after a part of the program has ended. -/
def Local (N : (o : S.Op) → Except S.Exn (S.Res o) → Option S.Op → Prop) : Prop :=
  ∀ o r, N o r none → ∀ o', N o r o'

theorem bind (hN : Local N) {p : Prog S α} {f : α → Prog S β} (hp : Follows N p)
    (hf : ∀ a, Follows N (f a)) : Follows N (p >>= f) := by
  induction p with
  | ret a => exact hf a
  | raise e => trivial
  | exit c => trivial
  | call o k ih =>
    intro r
    refine ⟨?_, ih r (hp r).2⟩
    cases hpend : (k r).pending with
    | none => exact hN o r (hpend ▸ (hp r).1) _
    | some o' =>
      have hk : (k r >>= f).pending = some o' := Prog.pending_bind hpend
      change N o r (k r >>= f).pending
      rw [hk, ← hpend]
      exact (hp r).1

theorem tryCatch (hN : Local N) {p : Prog S α} {handler : S.Exn → Prog S α} (hp : Follows N p)
    (hh : ∀ e, Follows N (handler e)) : Follows N (p.tryCatch handler) := by
  induction p with
  | ret a => trivial
  | raise e => exact hh e
  | exit c => trivial
  | call o k ih =>
    intro r
    refine ⟨?_, ih r (hp r).2⟩
    cases hpend : (k r).pending with
    | none => exact hN o r (hpend ▸ (hp r).1) _
    | some o' =>
      have hk : ((k r).tryCatch handler).pending = some o' := Prog.pending_tryCatch hpend
      change N o r ((k r).tryCatch handler).pending
      rw [hk, ← hpend]
      exact (hp r).1

theorem of_uses {P : S.Op → Prop} (h : ∀ o, P o → ∀ r o', N o r o') {p : Prog S α}
    (hp : Uses P (fun _ _ => True) p) : Follows N p := by
  induction p with
  | call o k ih => exact fun r => ⟨h o hp.1 r _, ih r (hp.2 r trivial)⟩
  | _ => trivial

end Follows
end Follows

section Until
variable (P : S.Op → Prop) (B : Prog S α → Prop)

/-- Statements of `P`, until what is left of the program is one of `B`. -/
inductive Until : Prog S α → Prop where
  | reached {p : Prog S α} (h : B p) : Until p
  | call {o : S.Op} {k : Except S.Exn (S.Res o) → Prog S α} (ho : P o) (hk : ∀ r, Until (k r)) :
      Until (.call o k)

namespace Until
variable {P B}

theorem of_not {o : S.Op} {k : Except S.Exn (S.Res o) → Prog S α} (h : Until P B (.call o k))
    (ho : ¬ P o) : B (.call o k) := by
  cases h with
  | reached h => exact h
  | call hP => exact absurd hP ho

theorem answer {o : S.Op} {k : Except S.Exn (S.Res o) → Prog S α} (h : Until P B (.call o k))
    (hB : B (.call o k) → ∀ r, B (k r)) (r : Except S.Exn (S.Res o)) : Until P B (k r) := by
  cases h with
  | reached h => exact .reached (hB h r)
  | call _ hk => exact hk r

theorem bind {A : (o : S.Op) → Except S.Exn (S.Res o) → Prop} (hA : ∀ o r, A o r)
    {p : Prog S β} {f : β → Prog S α} (hp : Uses P A p) (hf : ∀ a, Until P B (f a))
    (ended : ∀ q : Prog S α, q.Ended → B q) : Until P B (p >>= f) := by
  induction p with
  | ret a => exact hf a
  | raise e => exact .reached (ended _ trivial)
  | exit c => exact .reached (ended _ trivial)
  | call o k ih => exact .call hp.1 fun r => ih r (hp.2 r (hA o r))

theorem bindLeft {C : Prog S β → Prop} {p : Prog S β} {f : β → Prog S α} (hp : Until P C p)
    (hC : ∀ q, C q → B (q >>= f)) : Until P B (p >>= f) := by
  induction hp with
  | reached h => exact .reached (hC _ h)
  | call ho _ ih => exact .call ho ih

theorem tryCatch {C : Prog S α → Prop} {p : Prog S α} {handler : S.Exn → Prog S α}
    (hp : Until P C p) (hC : ∀ q, C q → B (q.tryCatch handler)) : Until P B (p.tryCatch handler) := by
  induction hp with
  | reached h => exact .reached (hC _ h)
  | call ho _ ih => exact .call ho ih

end Until
end Until

/-- The setting a program runs in: how the state may move while a statement is
pending, which answers it can get, what must hold when it is issued. -/
structure Setting (S : Signature) (σ : Type) where
  rely : Option S.Op → σ → σ → Prop
  answers : σ → (o : S.Op) → Except S.Exn (S.Res o) → σ → Prop
  needs : σ → S.Op → Prop
  rely_refl : ∀ o s, rely o s s
  rely_trans : ∀ {o s t u}, rely o s t → rely o t u → rely o s u

def Setting.keeping (kept : Option S.Op → (σ → Prop) → Prop)
    (answers : σ → (o : S.Op) → Except S.Exn (S.Res o) → σ → Prop) (needs : σ → S.Op → Prop) :
    Setting S σ where
  rely := fun o s t => ∀ P, kept o P → P s → P t
  answers := answers
  needs := needs
  rely_refl := fun _ _ _ _ h => h
  rely_trans := fun hst htu P hP h => htu P hP (hst P hP h)

def Ends (Q : α → σ → Prop) (R : S.Exn → σ → Prop) (C : S.Code → σ → Prop) : Exit S α → σ → Prop
  | .ret a, s => Q a s
  | .raise e, s => R e s
  | .exit c, s => C c s

variable {E : Setting S σ} {post M : Exit S α → σ → Prop}

def Outline (E : Setting S σ) (post : Exit S α → σ → Prop) : Prog S α → σ → Prop
  | .ret a, s => ∀ t, E.rely none s t → post (.ret a) t
  | .raise e, s => ∀ t, E.rely none s t → post (.raise e) t
  | .exit c, s => ∀ t, E.rely none s t → post (.exit c) t
  | .call o k, s => ∀ t, E.rely (some o) s t →
      E.needs t o ∧ ∀ r u, E.answers t o r u → Outline E post (k r) u

namespace Outline

theorem rely {p : Prog S α} {s t : σ} (h : Outline E post p s) (hst : E.rely p.pending s t) :
    Outline E post p t := by
  cases p <;> exact fun u htu => h u (E.rely_trans hst htu)

theorem needs {o : S.Op} {k : Except S.Exn (S.Res o) → Prog S α} {s : σ}
    (h : Outline E post (.call o k) s) : E.needs s o :=
  (h s (E.rely_refl _ s)).1

theorem answer {o : S.Op} {k : Except S.Exn (S.Res o) → Prog S α} {s u : σ}
    {r : Except S.Exn (S.Res o)} (h : Outline E post (.call o k) s)
    (hr : E.answers s o r u) : Outline E post (k r) u :=
  (h s (E.rely_refl _ s)).2 r u hr

theorem ended_ret {a : α} {s : σ} (h : Outline E post (.ret a) s) : post (.ret a) s :=
  h s (E.rely_refl _ s)

theorem ended_raise {e : S.Exn} {s : σ} (h : Outline E post (.raise e) s) :
    post (.raise e) s :=
  h s (E.rely_refl _ s)

theorem ended_exit {c : S.Code} {s : σ} (h : Outline E post (.exit c) s) : post (.exit c) s :=
  h s (E.rely_refl _ s)

theorem mono {p : Prog S α} {s : σ} (h : Outline E M p s)
    (hp : ∀ x t, M x t → post x t) : Outline E post p s := by
  induction p generalizing s with
  | ret a => exact fun t ht => hp _ t (h t ht)
  | raise e => exact fun t ht => hp _ t (h t ht)
  | exit c => exact fun t ht => hp _ t (h t ht)
  | call o k ih =>
    intro t ht
    obtain ⟨hn, hk⟩ := h t ht
    exact ⟨hn, fun r u hr => ih r (hk r u hr)⟩

theorem and {post' : Exit S α → σ → Prop} {p : Prog S α} {s : σ} (h : Outline E post p s)
    (h' : Outline E post' p s) : Outline E (fun x t => post x t ∧ post' x t) p s := by
  induction p generalizing s with
  | call o k ih =>
    intro t ht
    obtain ⟨hn, hk⟩ := h t ht
    exact ⟨hn, fun r u hr => ih r (hk r u hr) ((h' t ht).2 r u hr)⟩
  | _ => exact fun t ht => ⟨h t ht, h' t ht⟩

theorem bind {M : Exit S α → σ → Prop} {post : Exit S β → σ → Prop} {p : Prog S α}
    {f : α → Prog S β} {s : σ} (h : Outline E M p s)
    (hret : ∀ a t, M (.ret a) t → Outline E post (f a) t)
    (hraise : ∀ e t, M (.raise e) t → post (.raise e) t)
    (hexit : ∀ c t, M (.exit c) t → post (.exit c) t) :
    Outline E post (p >>= f) s := by
  induction p generalizing s with
  | ret a => exact hret a s h.ended_ret
  | raise e => exact fun t ht => hraise e t (h t ht)
  | exit c => exact fun t ht => hexit c t (h t ht)
  | call o k ih =>
    intro t ht
    obtain ⟨hn, hk⟩ := h t ht
    exact ⟨hn, fun r u hr => ih r (hk r u hr)⟩

theorem tryCatch {p : Prog S α} {handler : S.Exn → Prog S α} {s : σ}
    (h : Outline E M p s)
    (hret : ∀ a t, M (.ret a) t → post (.ret a) t)
    (hraise : ∀ e t, M (.raise e) t → Outline E post (handler e) t)
    (hexit : ∀ c t, M (.exit c) t → post (.exit c) t) :
    Outline E post (p.tryCatch handler) s := by
  induction p generalizing s with
  | ret a => exact fun t ht => hret a t (h t ht)
  | raise e => exact hraise e s h.ended_raise
  | exit c => exact fun t ht => hexit c t (h t ht)
  | call o k ih =>
    intro t ht
    obtain ⟨hn, hk⟩ := h t ht
    exact ⟨hn, fun r u hr => ih r (hk r u hr)⟩

/-- One statement: what is needed holds whenever it is issued, and each kind of
answer leaves the state fit for what follows. -/
theorem issue {o : S.Op} {post : Exit S (S.Res o) → σ → Prop} {s : σ}
    (h : ∀ t, E.rely (some o) s t → E.needs t o ∧
      (∀ r u, E.answers t o (.ok r) u → ∀ v, E.rely none u v → post (.ret r) v) ∧
      ∀ e u, E.answers t o (.error e) u → ∀ v, E.rely none u v → post (.raise e) v) :
    Outline E post (Prog.issue o) s := by
  intro t ht
  obtain ⟨hn, hok, herr⟩ := h t ht
  refine ⟨hn, fun r u hr => ?_⟩
  cases r with
  | ok r => exact hok r u hr
  | error e => exact herr e u hr

theorem seq {Q : α → σ → Prop} {Q' : β → σ → Prop} {R : S.Exn → σ → Prop} {C : S.Code → σ → Prop}
    {p : Prog S α} {f : α → Prog S β} {s : σ} (hp : Outline E (Ends Q R C) p s)
    (hf : ∀ a t, Q a t → Outline E (Ends Q' R C) (f a) t) : Outline E (Ends Q' R C) (p >>= f) s :=
  hp.bind hf (fun _ _ h => h) fun _ _ h => h

theorem returns {Q Q' : α → σ → Prop} {R : S.Exn → σ → Prop} {C : S.Code → σ → Prop}
    {p : Prog S α} {s : σ} (hp : Outline E (Ends Q R C) p s) (h : ∀ a t, Q a t → Q' a t) :
    Outline E (Ends Q' R C) p s :=
  hp.mono fun x t ht => by
    cases x with
    | ret a => exact h a t ht
    | _ => exact ht

theorem forEach {I : List β → σ → Prop} {Q : Unit → σ → Prop} {R : S.Exn → σ → Prop}
    {C : S.Code → σ → Prop} {f : β → Prog S Unit}
    (body : ∀ x xs s, I (x :: xs) s → Outline E (Ends (fun _ => I xs) R C) (f x) s)
    (done : ∀ s t, I [] s → E.rely none s t → Q () t) {xs : List β} {s : σ} (h : I xs s) :
    Outline E (Ends Q R C) (Prog.forEach xs f) s := by
  induction xs generalizing s with
  | nil => exact fun t ht => done s t h ht
  | cons x xs ih => exact (body x xs s h).seq fun _ _ ht => ih ht

theorem when {c : Prop} [Decidable c] {p : Prog S Unit} {post : Exit S Unit → σ → Prop} {s : σ}
    (hp : c → Outline E post p s) (hn : ¬ c → Outline E post (.ret ()) s) :
    Outline E post (Prog.when c p) s := by
  unfold Prog.when
  split
  · exact hp ‹_›
  · exact hn ‹_›

theorem of_uses {P : S.Op → Prop} {A : (o : S.Op) → Except S.Exn (S.Res o) → Prop} {I : σ → Prop}
    (stable : ∀ o s t, (∀ x, o = some x → P x) → I s → E.rely o s t → I t)
    (keep : ∀ o s, P o → I s → E.needs s o ∧ ∀ r u, E.answers s o r u → A o r ∧ I u)
    {p : Prog S α} (hp : Uses P A p) {s : σ} (hs : I s) : Outline E (fun _ u => I u) p s := by
  induction p generalizing s with
  | ret a => exact fun t ht => stable _ _ _ (by simp) hs ht
  | raise e => exact fun t ht => stable _ _ _ (by simp) hs ht
  | exit c => exact fun t ht => stable _ _ _ (by simp) hs ht
  | call o k ih =>
    intro t ht
    have hP : ∀ x, some o = some x → P x := fun x hx => Option.some.inj hx ▸ hp.1
    obtain ⟨hn, hk⟩ := keep o t hp.1 (stable _ _ _ hP hs ht)
    refine ⟨hn, fun r u hr => ?_⟩
    obtain ⟨hA, hu⟩ := hk r u hr
    exact ih r (hp.2 r hA) hu

/-- Nothing is asked of a program where nothing is needed and nothing is left to be true. -/
theorem trivial (needs : ∀ s o, E.needs s o) (post_all : ∀ x s, post x s) (p : Prog S α) (s : σ) :
    Outline E post p s := by
  induction p generalizing s with
  | call o k ih => exact fun t _ => ⟨needs t o, fun r u _ => ih r u⟩
  | _ => exact fun t _ => post_all _ t

end Outline
end Mports.StatementPrograms
