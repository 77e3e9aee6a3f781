import Mathlib.Data.Fintype.Card
import Mathlib.Data.List.Nodup
import Mathlib.Data.Set.Finite.Basic
import Mathlib.Logic.Relation

set_option autoImplicit false

/-!
Depth-first collection of everything reachable, where a node counts as seen as
soon as some node with the same key is. The fuel bounds the depth of the
recursion; a budget of one more than the unseen keys always suffices.
-/
namespace Mports.KeyedWalk

open Relation (ReflTransGen TransGen)

variable {α κ : Type} (next : α → List α) (key : α → κ)

def Edge (x y : α) : Prop := y ∈ next x

def Seen (seen : List α) (x : α) : Prop := key x ∈ seen.map key

theorem Seen.mono {s t : List α} (h : s <+: t) {x : α} (hx : Seen key s x) : Seen key t x :=
  (h.map key).subset hx

/-- Closed up to `old`: the collected nodes have all their successors' keys. -/
def ClosedFrom (old seen : List α) : Prop :=
  ∀ x ∈ seen, x ∉ old → ∀ y ∈ next x, Seen key seen y

theorem ClosedFrom.trans {a b c : List α} (hab : ClosedFrom next key a b)
    (hbc : ClosedFrom next key b c) (h : b <+: c) : ClosedFrom next key a c := by
  intro x hx ha y hy
  by_cases hb : x ∈ b
  · exact (hab x hb ha y hy).mono key h
  · exact hbc x hx hb y hy

variable [DecidableEq κ]

instance (seen : List α) (x : α) : Decidable (Seen key seen x) :=
  inferInstanceAs (Decidable (_ ∈ _))

def walk : ℕ → List α → List α → List α
  | 0, _, seen => seen
  | n + 1, todo, seen => todo.foldl (fun seen d =>
      if Seen key seen d then seen else walk n (next d) (seen ++ [d])) seen

abbrev visit (n : ℕ) (seen : List α) (d : α) : List α :=
  if Seen key seen d then seen else walk next key n (next d) (seen ++ [d])

theorem walk_cons (n : ℕ) (d : α) (ds seen : List α) :
    walk next key (n + 1) (d :: ds) seen =
      walk next key (n + 1) ds (visit next key n seen d) := rfl

theorem walk_keeps (n : ℕ) (todo seen : List α) : seen <+: walk next key n todo seen := by
  induction n generalizing todo seen with
  | zero => exact List.prefix_refl _
  | succ n ih =>
    induction todo generalizing seen with
    | nil => exact List.prefix_refl _
    | cons d ds ihd =>
      rw [walk_cons]
      refine List.IsPrefix.trans ?_ (ihd _)
      unfold visit
      split
      · exact List.prefix_refl _
      · exact (List.prefix_append _ _).trans (ih _ _)

theorem visit_keeps (n : ℕ) (seen : List α) (d : α) : seen <+: visit next key n seen d := by
  unfold visit
  split
  · exact List.prefix_refl _
  · exact (List.prefix_append _ _).trans (walk_keeps next key n _ _)

theorem walk_sound (n : ℕ) (todo seen : List α) {x : α}
    (hx : x ∈ walk next key n todo seen) :
    x ∈ seen ∨ ∃ d ∈ todo, ReflTransGen (Edge next) d x := by
  induction n generalizing todo seen with
  | zero => exact .inl hx
  | succ n ih =>
    induction todo generalizing seen with
    | nil => exact .inl hx
    | cons d ds ihd =>
      rw [walk_cons] at hx
      rcases ihd _ hx with hv | ⟨e, he, hr⟩
      · unfold visit at hv
        split at hv
        · exact .inl hv
        rcases ih _ _ hv with hs | ⟨e, he, hr⟩
        · rcases List.mem_append.1 hs with hs | hs
          · exact .inl hs
          · exact .inr ⟨d, by simp, List.mem_singleton.1 hs ▸ .refl⟩
        · exact .inr ⟨d, by simp, .head he hr⟩
      · exact .inr ⟨e, List.mem_cons_of_mem _ he, hr⟩

/-- The recursion itself, with no fuel: pending nodes are taken in order, and a new
one is followed before the rest. -/
inductive Walks : List α → List α → List α → Prop
  | nil (seen : List α) : Walks [] seen seen
  | skip {d : α} {ds seen last : List α} (hd : Seen key seen d) (rest : Walks ds seen last) :
      Walks (d :: ds) seen last
  | follow {d : α} {ds seen mid last : List α} (hd : ¬ Seen key seen d)
      (into : Walks (next d) (seen ++ [d]) mid) (rest : Walks ds mid last) :
      Walks (d :: ds) seen last

theorem walk_nodup (n : ℕ) (todo : List α) {seen : List α} (h : (seen.map key).Nodup) :
    ((walk next key n todo seen).map key).Nodup := by
  induction n generalizing todo seen with
  | zero => exact h
  | succ n ih =>
    induction todo generalizing seen with
    | nil => exact h
    | cons d ds ihd =>
      rw [walk_cons]
      apply ihd
      unfold visit
      split
      · exact h
      · rename_i hd
        apply ih
        rw [List.map_append]
        exact h.append (List.nodup_singleton _) (by simpa [Seen] using hd)

section Budget
variable (U : List κ)

def unseen (seen : List α) : ℕ := (U.filter fun k => k ∉ seen.map key).length

theorem unseen_le (seen : List α) : unseen key U seen ≤ U.length := List.length_filter_le _ _

theorem unseen_mono {s t : List α} (h : s <+: t) : unseen key U t ≤ unseen key U s := by
  refine (List.monotone_filter_right U ?_).length_le
  intro k hk
  simp only [decide_eq_true_eq] at hk ⊢
  exact fun hs => hk ((h.map key).subset hs)

theorem unseen_lt {seen : List α} {d : α} (hU : key d ∈ U) (hd : ¬ Seen key seen d) :
    unseen key U (seen ++ [d]) < unseen key U seen := by
  have hsub := List.monotone_filter_right U
    (p := fun k => decide (k ∉ (seen ++ [d]).map key)) (q := fun k => decide (k ∉ seen.map key))
    (by intro k hk; simp only [decide_eq_true_eq, List.map_append, List.mem_append] at hk ⊢
        exact fun hs => hk (.inl hs))
  refine Nat.lt_of_le_of_ne hsub.length_le fun he => ?_
  have heq := hsub.eq_of_length he
  have hmem : key d ∈ U.filter fun k => k ∉ seen.map key :=
    List.mem_filter.2 ⟨hU, by simpa [Seen] using hd⟩
  rw [← heq] at hmem
  simp at hmem

/-- With enough fuel for the unseen keys the walk collects every pending node
and everything that follows from what it collects. -/
theorem walk_complete (n : ℕ) (todo seen : List α) (hn : unseen key U seen < n)
    (hU : ∀ d ∈ todo, ∀ x, ReflTransGen (Edge next) d x → key x ∈ U) :
    (∀ d ∈ todo, Seen key (walk next key n todo seen) d) ∧
      ClosedFrom next key seen (walk next key n todo seen) := by
  induction n generalizing todo seen with
  | zero => omega
  | succ n ih =>
    induction todo generalizing seen with
    | nil => exact ⟨by simp, fun x hx hs => absurd hx hs⟩
    | cons d ds ihd =>
      rw [walk_cons]
      have hvisit : Seen key (visit next key n seen d) d ∧
          ClosedFrom next key seen (visit next key n seen d) := by
        unfold visit
        split
        · rename_i hd
          exact ⟨hd, fun x hx hs => absurd hx hs⟩
        · rename_i hd
          have hd' := unseen_lt key U (hU d (by simp) d .refl) hd
          obtain ⟨htodo, hclosed⟩ := ih (next d) (seen ++ [d]) (by omega)
            fun e he x hr => hU d (by simp) x (.head he hr)
          have hpre := walk_keeps next key n (next d) (seen ++ [d])
          refine ⟨Seen.mono key hpre (by simp [Seen]), fun x hx hs => ?_⟩
          by_cases hxd : x ∈ seen ++ [d]
          · have : x = d := by simpa [hs] using hxd
            exact this ▸ htodo
          · exact hclosed x hx hxd
      have hpre := visit_keeps next key n seen d
      obtain ⟨hds, hclosed⟩ := ihd (visit next key n seen d)
        (Nat.lt_of_le_of_lt (unseen_mono key U hpre) hn) fun e he => hU e (List.mem_cons_of_mem _ he)
      have hpre' := walk_keeps next key (n + 1) ds (visit next key n seen d)
      refine ⟨fun e he => ?_, hvisit.2.trans next key hclosed hpre'⟩
      rcases List.mem_cons.1 he with rfl | he
      · exact hvisit.1.mono key hpre'
      · exact hds e he

theorem walk_walks (n : ℕ) (todo seen : List α) (hn : unseen key U seen < n)
    (hU : ∀ d ∈ todo, ∀ x, ReflTransGen (Edge next) d x → key x ∈ U) :
    Walks next key todo seen (walk next key n todo seen) := by
  induction n generalizing todo seen with
  | zero => omega
  | succ n ih =>
    induction todo generalizing seen with
    | nil => exact .nil seen
    | cons d ds ihd =>
      rw [walk_cons]
      have hrest := ihd (visit next key n seen d)
        (Nat.lt_of_le_of_lt (unseen_mono key U (visit_keeps next key n seen d)) hn)
        fun e he => hU e (List.mem_cons_of_mem _ he)
      by_cases hd : Seen key seen d
      · have hvisit : visit next key n seen d = seen := if_pos hd
        rw [hvisit] at hrest ⊢
        exact .skip hd hrest
      · have hvisit : visit next key n seen d = walk next key n (next d) (seen ++ [d]) := if_neg hd
        have hless := unseen_lt key U (hU d (by simp) d .refl) hd
        rw [hvisit] at hrest ⊢
        exact .follow hd (ih (next d) (seen ++ [d]) (by omega)
          fun e he x hr => hU d (by simp) x (.head he hr)) hrest

end Budget
section Acyclic
variable {α : Type}

theorem acyclic_induction {α : Type} [Finite α] {r : α → α → Prop} (acyclic : ∀ a, ¬ TransGen r a a)
    {P : α → Prop} (step : ∀ a, (∀ b, r a b → P b) → P a) (a : α) : P a := by
  have hwf : WellFounded (TransGen fun b a => r a b) := by
    have : Std.Irrefl (TransGen fun b a => r a b) :=
      ⟨fun a hcycle => acyclic a (Relation.transGen_swap.1 hcycle)⟩
    exact Finite.wellFounded_of_trans_of_irrefl _
  induction a using hwf.induction with
  | h a ih => exact step a fun b hb => ih b (.single hb)

theorem acyclic_induction_on {r : α → α → Prop} (acyclic : ∀ a, ¬ TransGen r a a) {l : List α}
    (listed : ∀ a b, r a b → a ∈ l) {P : α → Prop} (step : ∀ a, (∀ b, r a b → P b) → P a) (a : α) : P a := by
  have hlifted : ∀ a b : { x // x ∈ l }, TransGen (fun x y : { x // x ∈ l } => r x.1 y.1) a b → TransGen r a.1 b.1 :=
    fun _ _ h => h.lift Subtype.val fun _ _ hxy => hxy
  have : Finite { x // x ∈ l } := List.finite_toSet l
  have hin : ∀ a : { x // x ∈ l }, P a.1 := by
    intro a
    refine acyclic_induction (fun a hcycle => acyclic a.1 (hlifted a a hcycle)) (fun a ih => step a.1 ?_) a
    intro b hb
    by_cases hmem : b ∈ l
    · exact ih ⟨b, hmem⟩ hb
    · exact step b fun c hc => absurd (listed b c hc) hmem
  by_cases hmem : a ∈ l
  · exact hin ⟨a, hmem⟩
  · exact step a fun b hb => absurd (listed a b hb) hmem

end Acyclic
end Mports.KeyedWalk
