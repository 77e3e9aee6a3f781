import Mports.MagusConduct
import Mports.MagusPackages
import Mports.MagusRebuilds

set_option autoImplicit false

namespace Mports.MagusFinishedRuns
open MagusTables MagusDepends MagusReady MagusEffects MagusCluster
open MagusTasks MagusConduct MagusPackages MagusRebuilds LabelledRuns

/-- Every port of the run that is still untested waits for a package: fetching it could
not make it ready. -/
def Stuck (db : Db) (run : RunId) : Prop :=
  ∀ row ∈ db.tree.ports, row.run = run → db.status row.id = .untested →
    ∃ d ∈ db.tree.depends, d.port = row.id ∧ nonTest d.type ∧ ¬ (db.status d.dependency).Good

def Concerns (p : PortId) (k : Kind) : Prop :=
  Builds p k ∨ ∃ row, k = .picked row .build ∧ row.id = p

/-- Nobody is at a build of a port of the run. -/
def Idle (run : RunId) (c : Cluster) : Prop :=
  ∀ x k q, task c x = some (k, q) → ∀ row ∈ c.db.tree.ports, row.run = run → ¬ Concerns row.id k

def Indexing (c : Cluster) (e : Event) : Prop :=
  ∃ pid ch p q, e = .call pid ch ∧ task c (.inl pid) = some (.index p, q)

instance (c : Cluster) : (e : Event) → Decidable (Indexing c e)
  | .call pid _ => decidable_of_iff ((task c (.inl pid)).any fun t => match t.1 with
      | .index _ => true
      | _ => false) (by
        simp only [Option.any_eq_true, Indexing, Event.call.injEq]
        constructor
        · rintro ⟨⟨k, q⟩, ht, hk⟩
          cases k <;> cases hk
          exact ⟨pid, _, _, q, ⟨rfl, rfl⟩, ht⟩
        · rintro ⟨_, _, p, q, ⟨rfl, _⟩, ht⟩
          exact ⟨_, ht, rfl⟩)
  | .fork .. | .waited .. | .interrupt .. | .signal .. | .exit .. | .select .. | .insert ..
  | .giveUp .. | .startChild .. | .forkFailed .. | .reap .. | .bury .. | .killChildren ..
  | .killNext .. | .resetPort .. | .index .. | .indexDepends .. | .tick =>
      .isFalse (by simp [Indexing])

/-- A step that neither resets a port of the run nor indexes. -/
def Ordinary (run : RunId) (c : Cluster) (e : Event) : Prop :=
  (∀ row ∈ c.db.tree.ports, row.run = run → ¬ Resets row.id c e) ∧ ¬ Indexing c e

instance (run : RunId) (c : Cluster) (e : Event) : Decidable (Ordinary run c e) :=
  inferInstanceAs (Decidable ((∀ row ∈ _, _) ∧ _))

theorem Stuck.not_ready {db : Db} {run : RunId} (h : Stuck db run) : readyPorts db run .build = [] := by
  refine List.filter_eq_nil_iff.2 fun row hrow hready => ?_
  simp only [decide_eq_true_eq] at hready
  obtain ⟨hrun, _, _, huntested, _, hdepends⟩ := hready
  obtain ⟨d, hd, hp, htype, hnot⟩ := h row hrow hrun huntested
  exact hnot (hdepends d hd hp htype).1

structure Over (run : RunId) (s c : Cluster) : Prop where
  regular : Regular (fun _ => True) c
  idle : Idle run c
  tree : c.db.tree = s.db.tree
  status : ∀ row ∈ s.db.tree.ports, row.run = run → c.db.status row.id = s.db.status row.id
  unlocked : ∀ row ∈ s.db.tree.ports, row.run = run → c.db.lock row.id .build = none

namespace Over
variable {run : RunId} {s c c' : Cluster} {e : Event}

theorem stuck (h : Over run s c) (hs : Stuck s.db run) : Stuck c.db run := by
  intro row hrow hrun huntested
  rw [h.tree] at hrow ⊢
  rw [h.status row hrow hrun] at huntested
  obtain ⟨d, hd, hp, htype, hnot⟩ := hs row hrow hrun huntested
  refine ⟨d, hd, hp, htype, ?_⟩
  -- a dependency belongs to the run of its port
  obtain ⟨a, ha, b, hb, hap, hbd, hab⟩ := s.db.tree.depends_run d hd
  obtain rfl : a = row := List.inj_on_of_nodup_map s.db.tree.ports_key ha hrow (hap.trans hp)
  rwa [← hbd, h.status b hb (hab.symm.trans hrun), hbd]

theorem step (h : Over run s c) (hs : Stuck s.db run) (hm : Move c e c') (ho : Ordinary run c e) :
    Over run s c' := by
  have hstuck := h.stuck hs
  have htasks : ∀ x k q, task c' x = some (k, q) → ∀ row ∈ s.db.tree.ports, row.run = run →
      ¬ Concerns row.id k := by
    intro x k q ht row hrow hrun hk
    have hrow' : row ∈ c.db.tree.ports := h.tree ▸ hrow
    rcases hk with ⟨l, hl, hp, hph⟩ | ⟨row', rfl, hp⟩
    · rcases lock_before h.regular.links hm ht hl with ⟨y, k₀, q₀, hold, hl₀⟩ |
        ⟨machine, row', ph, _, hd, _, rfl⟩
      · exact h.idle y k₀ q₀ hold row hrow' hrun (.inl ⟨l, hl₀, hp, hph⟩)
      · cases hph
        exact h.idle _ _ _ (task_daemon hd) row hrow' hrun (.inr ⟨row', rfl, hp⟩)
    · rcases accounted h.regular.links hm x _ ht with ⟨hold, _⟩ | hb
      · exact h.idle x _ q hold row hrow' hrun (.inr ⟨row', rfl, hp⟩)
      generalize c'.db = db at hb
      generalize hk : (Kind.picked row' .build, q).1 = k at hb
      cases hb with
      | answered hold how =>
        subst hk
        exact h.idle _ _ _ hold row hrow' hrun (.inr ⟨row', rfl, hp⟩)
      | selected hsel =>
        cases hk
        obtain ⟨hmem, hrun', hready⟩ := hsel.ready
        obtain rfl : row' = row := List.inj_on_of_nodup_map c.db.tree.ports_key hmem hrow' hp
        have hno := List.filter_eq_nil_iff.1 hstuck.not_ready row' hmem
        exact hno (by simpa using ⟨hrun, hready⟩)
      | _ => cases hk
  obtain ⟨y, hmoved⟩ := moved hm
  refine ⟨h.regular.step hm ?_, ?_, ?_, ?_, ?_⟩
  · cases e with
    | interrupt pid sig => cases sig <;> simp [Handles]
    | _ => trivial
  all_goals generalize hdb : c'.db = db at hmoved
  · intro x k q ht row hrow hrun
    refine htasks x k q ht row ?_ hrun
    rw [hdb] at hrow
    cases hmoved with
    | call hcall ha =>
      rw [tree_writer h.regular.conduct hcall ha fun q hq => ho.2 ⟨_, _, _, _, rfl, hq ▸ hcall⟩] at hrow
      exact h.tree ▸ hrow
    | _ => exact h.tree ▸ hrow
  · cases hmoved with
    | call hcall ha =>
      rw [tree_writer h.regular.conduct hcall ha fun q hq => ho.2 ⟨_, _, _, _, rfl, hq ▸ hcall⟩]
      exact h.tree
    | _ => exact h.tree
  · intro row hrow hrun
    cases hmoved with
    | call hcall ha =>
      by_contra hne
      have hrow' : row ∈ c.db.tree.ports := h.tree ▸ hrow
      rcases status_writer h.regular.conduct hcall ha
        (fun he => hne (he.trans (h.status row hrow hrun))) with hb | rfl | ⟨q, rfl⟩
      · exact h.idle _ _ _ hcall row hrow' hrun (.inl hb)
      · exact ho.1 row hrow' hrun ⟨_, _, _, _, rfl, hcall, rfl⟩
      · exact ho.2 ⟨_, _, _, _, rfl, hcall⟩
    | _ => exact h.status row hrow hrun
  · intro row hrow hrun
    cases hmoved with
    | call hcall ha =>
      cases hl : db.lock row.id .build with
      | none => rfl
      | some r =>
        have := answer_lock_sub ha hl
        simp [h.unlocked row hrow hrun] at this
    | @insert machine row' ph ht hfree =>
      change put c.db.lock row'.id ph _ row.id .build = none
      rw [put_apply, if_neg]
      · exact h.unlocked row hrow hrun
      · rintro ⟨hp, rfl⟩
        exact h.idle _ _ _ ht row (h.tree ▸ hrow) hrun (.inr ⟨row', rfl, hp.symm⟩)
    | _ => exact h.unlocked row hrow hrun

end Over

/-- A run that is empty while every untested port of it waits for a package, and while
nobody is at a build of it, stays empty: `get_ready_port` never returns a port again. -/
theorem stays_finished {db : Db} (free : ∀ p ph, db.lock p ph = none) {run : RunId}
    {h h' : List (Cluster × Event)} {s t : Cluster}
    (reached : Run Cluster.Step (Cluster.start db) h s) (empty : IsEmpty s.db run)
    (stuck : Stuck s.db run) (idle : Idle run s) (rest : Run Cluster.Step s h' t)
    (ordinary : AllSteps (Ordinary run) h') :
    IsEmpty t.db run ∧ ∀ row, ¬ GetReadyPort t.db run .build row := by
  have hregular : Regular (fun _ => True) s := reached.invariant (Regular fun _ => True)
    (K := fun _ _ => True) (fun _ _ => trivial) (.start free) fun c e c' hr hstep _ => by
      refine hr.step (Cluster.step_move hstep) ?_
      cases e with
      | interrupt pid sig => cases sig <;> simp [Handles]
      | _ => trivial
  have hover : Over run s t := rest.invariant (Over run s) ordinary
    ⟨hregular, idle, rfl, fun _ _ _ => rfl, empty.1⟩ fun _ _ _ hI hstep ho =>
      hI.step stuck (Cluster.step_move hstep) ho
  have hready := (hover.stuck stuck).not_ready
  refine ⟨⟨fun row hrow hrun => hover.unlocked row (hover.tree ▸ hrow) hrun, hready⟩, fun row hrow => ?_⟩
  have := hrow.1
  rw [hready] at this
  cases this

/-- The first of two ports has failed, and the second, which needs it, waits for its fetch. -/
def heldDb : Db :=
  { chainDb with
    status := fun p => if p = 0 then .fail else .untested
    phaseRow := fun p ph => some { PhaseRow.fresh 0 with status := if p = 0 ∧ ph ≠ .scan then .fail else .untested } }

theorem held_stays_finished : ∃ h t, Run Cluster.Step (Cluster.start heldDb) h t ∧
    t.db.status 1 = .untested ∧ t.db.lock 1 .fetch ≠ none ∧ IsEmpty t.db 1 := by
  obtain ⟨h, t, rest, hf⟩ := reached_of_history Cluster.next (w := taken 1 sampleDependent .fetch 20)
    (s := Cluster.start heldDb) (f := fun x => decide ((x.2.db.lock 1 .fetch).isSome = true) &&
      decide (x.2.db.status 1 = .untested) && x.1.all fun y => decide (Ordinary 1 y.1 y.2)) (by decide +kernel)
  simp only [Bool.and_eq_true, List.all_eq_true, decide_eq_true_eq] at hf
  obtain ⟨⟨hlocked, huntested⟩, hall⟩ := hf
  have stuck : Stuck heldDb 1 := by
    intro row hrow _ hst
    have hsecond : row = sampleDependent := by
      simp only [heldDb, chainDb, List.mem_cons, List.not_mem_nil, or_false] at hrow
      rcases hrow with rfl | rfl
      · cases hst
      · rfl
    subst hsecond
    exact ⟨⟨1, 0, "lib"⟩, List.mem_singleton_self _, rfl, by decide, by decide⟩
  have idle : Idle 1 (Cluster.start heldDb) := by
    intro x k q ht
    cases x <;> cases ht
  refine ⟨h, t, rest, huntested, by simpa [Option.isSome_iff_ne_none] using hlocked, ?_⟩
  exact (stays_finished (fun _ _ => rfl) .start ⟨fun _ _ _ => rfl, stuck.not_ready⟩ stuck idle rest hall).1

/-- A freshly indexed run is empty. When a worker has begun to fetch its port, the port
is ready for its build. -/
theorem fresh_run_restarts : ∃ h s h' t, Run Cluster.Step (Cluster.start .empty) h s ∧
    IsEmpty s.db 1 ∧ Run Cluster.Step s h' t ∧ AllSteps (Ordinary 1) h' ∧
      GetReadyPort t.db 1 .build samplePort := by
  obtain ⟨h, s, run, hs⟩ := reached_of_history Cluster.next (s := Cluster.start .empty) (w := indexed)
    (f := fun x => decide (IsEmpty x.2.db 1) &&
      (history Cluster.next x.2 (taken 1 samplePort .fetch 20 ++ calls 20 3) []).any
        fun y : List (Cluster × Event) × Cluster =>
          decide (∀ z ∈ y.1, Ordinary 1 z.1 z.2) && decide (GetReadyPort y.2.db 1 .build samplePort))
    (by decide +kernel)
  simp only [Bool.and_eq_true, decide_eq_true_eq] at hs
  obtain ⟨h', t, rest, ht⟩ := reached_of_history Cluster.next hs.2
  simp only [Bool.and_eq_true, decide_eq_true_eq] at ht
  exact ⟨h, s, h', t, run, hs.1, rest, ht.1, ht.2⟩

end Mports.MagusFinishedRuns
