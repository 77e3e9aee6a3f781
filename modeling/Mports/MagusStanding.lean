import Mports.MagusOwnership

set_option autoImplicit false

namespace Mports.MagusStanding
open MagusTables MagusStatements MagusWorker MagusCluster MagusHolders
open MagusChildren MagusTasks MagusConduct MagusOwnership

variable (counts : Lock → Magus Unit → Prop)

/-- What needs the row of a lock: a worker that counts, and the daemon about to start one. -/
def Counted (k : Kind) (q : Magus Unit) (l : Lock) : Prop :=
  k = .worker l ∧ counts l q ∨ k = .hand l ∧ counts l (run l)

/-- `kill_children` leaves its waiting loop only when no worker of the machine counts. -/
def Leaves (c : Cluster) : Event → Prop
  | .killChildren machine _ =>
      ∀ pid l q, task c (.inl pid) = some (.worker l, q) → counts l q → l.machine ≠ machine
  | _ => True

/-- Every worker that counts has its row, and none is left at a machine that kills. -/
structure Standing (c : Cluster) : Prop where
  regular : Regular (fun _ => True) c
  methodical : Methodical c
  gone : ∀ pid l q, task c (.inl pid) = some (.worker l, q) → counts l q →
    ¬ Kills (c.daemon l.machine)
  locked : ∀ x k q l, task c x = some (k, q) → Counted counts k q l → c.db.Locked l

variable {counts} {c c' : Cluster} {e : Event}

theorem Counted.lock {k : Kind} {q : Magus Unit} {l : Lock} (h : Counted counts k q l) :
    k.lock = some l := by
  rcases h with ⟨rfl, _⟩ | ⟨rfl, _⟩ <;> rfl

theorem Counted.not_child {k : Kind} {q : Magus Unit} {l : Lock} (h : Counted counts k q l) :
    ∀ l', k ≠ .makeChild l' := by
  rcases h with ⟨rfl, _⟩ | ⟨rfl, _⟩ <;> simp

theorem worker_before (links : Links c) (hm : Move c e c') {pid : Pid} {l : Lock} {q : Magus Unit}
    (ht : task c' (.inl pid) = some (.worker l, q)) :
    (∃ q', task c (.inl pid) = some (.worker l, q') ∧
      (q' = q ∨ ∃ o κ r, q' = .call o κ ∧ q = κ r)) ∨
      ∃ machine, e = .startChild machine pid ∧ c.daemon machine = .hand l ∧ q = run l := by
  rcases accounted links hm _ _ ht with ⟨ht, _⟩ | hb
  · exact .inl ⟨q, ht, .inl rfl⟩
  generalize c'.db = db at hb
  generalize hk : (Kind.worker l, q).1 = k at hb
  generalize hq : (Kind.worker l, q).2 = q₁ at hb
  cases hb with
  | answered hold how =>
    subst hk
    exact .inl ⟨_, hold, .inr ⟨_, _, _, rfl, hq⟩⟩
  | @started machine _ l' hold =>
    cases hk
    obtain ⟨_, hx, hd⟩ := daemon_hand hold
    cases hx
    exact .inr ⟨machine, rfl, hd, hq⟩
  | _ => cases hk

namespace Standing

theorem start {db : Db} (free : ∀ p ph, db.lock p ph = none) :
    Standing counts (Cluster.start db) where
  regular := .start free
  methodical := .start db
  gone := fun _ _ _ h => by cases h
  locked := fun x _ _ _ h => by cases x <;> cases h

theorem killer_machine (h : Standing counts c) {x : Owner} {k : Kind} {q q' : Magus Unit}
    {pid : Pid} {l l' : Lock} (ht : task c x = some (k, q)) (hs : Counted counts k q l)
    (hkiller : task c (.inl pid) = some (.killer l', q')) (hid : l'.id = l.id) : False := by
  have ids := h.regular.ids
  have hmachine : l'.machine = l.machine := by
    obtain ⟨row, hrow, hrid⟩ := Option.map_eq_some_iff.1 (h.locked x k q l ht hs)
    have h₁ := (ids.named l (.inl ⟨x, holder_of_task ht hs.lock hs.not_child⟩)).2 _ _ row hrow hrid
    have h₂ := (ids.named l' (killer_mentions hkiller)).2 _ _ row hrow (hrid.trans hid.symm)
    exact h₂.2.2.symm.trans h₁.2.2
  obtain ⟨todo, hd⟩ := h.methodical.busy pid l' _ hkiller
  rw [hmachine] at hd
  rcases hs with ⟨rfl, hcounts⟩ | ⟨rfl, _⟩
  · rcases x with pid' | machine
    · exact h.gone pid' l q ht hcounts (.inr ⟨_, _, hd⟩)
    · cases hd' : c.daemon machine <;> rw [task_daemon hd'] at ht <;> cases ht
  · obtain ⟨machine, _, hhand⟩ := daemon_hand ht
    rw [ids.hands machine l hhand, hhand] at hd
    cases hd

/-- Nobody but the burial of a worker and a killer deletes rows, and neither that of a
lock some worker stands for. -/
theorem keeps (h : Standing counts c) (hm : Move c e c') {x : Owner} {k : Kind} {q : Magus Unit}
    {l : Lock} (ht : task c x = some (k, q)) (hs : Counted counts k q l) : c'.db.Locked l := by
  have hlocked := h.locked x k q l ht hs
  obtain ⟨y, hmoved⟩ := moved hm
  generalize c'.db = db at hmoved
  cases hmoved with
  | still => exact hlocked
  | tick => exact hlocked
  | insert _ hfree => exact withLock_locked hfree hlocked
  | @call pid k' o κ ch r db hcall ha =>
    rcases call_spares h.regular.conduct hcall ha hlocked with hkeep | ⟨l', hid, _, _, hk⟩
    · exact hkeep
    exfalso
    rcases hk with ⟨code, rfl⟩ | rfl
    · -- one lock, one holder: the burial would be the worker's own
      have hholder : holder c x = some l := holder_of_task ht hs.lock hs.not_child
      have hburial : holder c (.inl pid) = some l' := holder_of_task hcall rfl (by simp)
      obtain rfl := h.regular.ids.unique _ _ _ _ hholder hburial hid.symm
      rw [ht] at hcall
      cases hcall
      rcases hs with ⟨hs, _⟩ | ⟨hs, _⟩ <;> cases hs
    · exact h.killer_machine ht hs hcall hid

theorem step (back : ∀ l o κ r, counts l (κ r) → counts l (.call o κ)) (h : Standing counts c)
    (hm : Move c e c') (hw : Leaves counts c e) : Standing counts c' where
  regular := h.regular.step hm (handles_all c e)
  methodical := h.methodical.step h.regular.links hm
  gone := by
    intro pid l q ht hcounts hk
    rcases worker_before h.regular.links hm ht with ⟨q', hold, hq⟩ | ⟨machine, rfl, hhand, rfl⟩
    · have hcounts' : counts l q' := by
        rcases hq with rfl | ⟨o, κ, r, rfl, rfl⟩
        · exact hcounts
        · exact back l o κ r hcounts
      have hs := shifts hm l.machine
      have hleft := h.gone pid l q' hold hcounts'
      generalize hmachine : l.machine = machine at hs hleft hk
      generalize c'.daemon machine = d at hs hk
      cases hs with
      | same => exact hleft hk
      | idle _ hd =>
        rcases hk with ⟨todo, hk⟩ | ⟨pid, todo, hk⟩
        · exact (hd todo).1 hk
        · exact (hd todo).2 pid hk
      | killing => exact hw pid l q' hold hcounts' hmachine
      | killingPort hd => exact hleft (.inl ⟨_, hd⟩)
      | killed _ _ hd => exact hleft (.inr ⟨_, _, hd⟩)
    · rw [h.regular.ids.hands machine l hhand] at hk
      cases hm with
      | startChild hd hfree =>
        rw [Cluster.setDaemon_daemon, Function.update_self] at hk
        rcases hk with ⟨_, hk⟩ | ⟨_, _, hk⟩ <;> cases hk
  locked := by
    intro x k q l ht hs
    rcases accounted h.regular.links hm x _ ht with ⟨hold, _⟩ | hb
    · exact h.keeps hm hold hs
    generalize hdb : c'.db = db at hb
    cases hb with
    | answered hold how =>
      refine hdb ▸ h.keeps hm hold ?_
      rcases hs with ⟨hk, hcounts⟩ | hs
      · exact .inl ⟨hk, back l _ _ _ hcounts⟩
      · exact .inr hs
    | started hold =>
      rcases hs with ⟨hs, hcounts⟩ | ⟨hs, _⟩ <;> cases hs
      exact hdb ▸ h.keeps hm hold (.inr ⟨rfl, hcounts⟩)
    | inserted hold hfree =>
      rcases hs with ⟨hs, _⟩ | ⟨hs, _⟩ <;> cases hs
      simp [Db.Locked, withLock]
    | _ => rcases hs with ⟨hs, _⟩ | ⟨hs, _⟩ <;> cases hs

/-- Who stands for one row is one: one row for a port and a phase, one id for a row,
one holder for an id. -/
theorem unique (h : Standing counts c) {x y : Owner} {k k' : Kind} {q q' : Magus Unit}
    {l l' : Lock} (hx : task c x = some (k, q)) (hs : Counted counts k q l)
    (hy : task c y = some (k', q')) (hs' : Counted counts k' q' l') (hport : l.port.id = l'.port.id)
    (hphase : l.phase = l'.phase) : x = y := by
  have h₁ := h.locked x k q l hx hs
  have h₂ := h.locked y k' q' l' hy hs'
  rw [Db.Locked, hport, hphase, h₂, Option.some.injEq] at h₁
  exact h.regular.ids.unique x y l l' (holder_of_task hx hs.lock hs.not_child)
    (holder_of_task hy hs'.lock hs'.not_child) h₁.symm

end Standing
end Mports.MagusStanding
