import Mports.MagusStanding

set_option autoImplicit false

namespace Mports.MagusShutdown
open MagusTables MagusStatements MagusCluster MagusHolders
open MagusTasks MagusConduct MagusOwnership MagusStanding LabelledRuns

/-- `kill_children` leaves its waiting loop only when no worker of the machine lives. -/
def Waited (c : Cluster) : Event → Prop
  | .killChildren machine _ =>
      ∀ pid l q, task c (.inl pid) = some (.worker l, q) → l.machine ≠ machine
  | _ => True

/-- What needs the row of a lock: its worker and the daemon about to start one. -/
def Stands (k : Kind) (l : Lock) : Prop := k = .worker l ∨ k = .hand l

/-- Every worker has its row, and none is left at a machine that kills. -/
structure Exclusive (c : Cluster) : Prop where
  regular : Regular (fun _ => True) c
  methodical : Methodical c
  gone : ∀ pid l q, task c (.inl pid) = some (.worker l, q) → ¬ Kills (c.daemon l.machine)
  locked : ∀ x k q l, task c x = some (k, q) → Stands k l → c.db.Locked l

section Steps
variable {c c' : Cluster} {e : Event}

namespace Exclusive

theorem standing (h : Exclusive c) : Standing (fun _ _ => True) c where
  regular := h.regular
  methodical := h.methodical
  gone := fun pid l q ht _ => h.gone pid l q ht
  locked := fun x k q l ht hs => h.locked x k q l ht (hs.imp And.left And.left)

theorem of_standing (h : Standing (fun _ _ => True) c) : Exclusive c where
  regular := h.regular
  methodical := h.methodical
  gone := fun pid l q ht => h.gone pid l q ht trivial
  locked := fun x k q l ht hs =>
    h.locked x k q l ht (hs.imp (fun hk => ⟨hk, trivial⟩) fun hk => ⟨hk, trivial⟩)

theorem start {db : Db} (free : ∀ p ph, db.lock p ph = none) : Exclusive (Cluster.start db) :=
  of_standing (.start free)

theorem keeps (h : Exclusive c) (hm : Move c e c') {pid : Pid} {q : Magus Unit} {l : Lock}
    (ht : task c (.inl pid) = some (.worker l, q)) : c'.db.Locked l :=
  h.standing.keeps hm ht (.inl ⟨rfl, trivial⟩)

theorem step (h : Exclusive c) (hm : Move c e c') (hw : Waited c e) : Exclusive c' := by
  refine of_standing (h.standing.step (fun _ _ _ _ _ => trivial) hm ?_)
  cases e with
  | killChildren machine kid => exact fun pid l q ht _ => hw pid l q ht
  | _ => trivial

theorem unique (h : Exclusive c) {pid pid' : Pid} {q q' : Magus Unit} {l l' : Lock}
    (ht : task c (.inl pid) = some (.worker l, q)) (ht' : task c (.inl pid') = some (.worker l', q'))
    (hport : l.port.id = l'.port.id) (hphase : l.phase = l'.phase) : pid = pid' :=
  Sum.inl.inj (h.standing.unique ht (.inl ⟨rfl, trivial⟩) ht' (.inl ⟨rfl, trivial⟩) hport hphase)

end Exclusive
end Steps

/-- Where `kill_children` waits for its workers, no two live workers execute one phase
of a port, and a step deletes no row whose lock a live worker holds. -/
theorem workers_exclusive {db : Db} (free : ∀ p ph, db.lock p ph = none)
    {h : List (Cluster × Event)} {c : Cluster} (run : Run Cluster.Step (Cluster.start db) h c)
    (all : AllSteps Waited h) :
    (∀ pid pid' l l' q q', task c (.inl pid) = some (.worker l, q) →
      task c (.inl pid') = some (.worker l', q') → l.port.id = l'.port.id → l.phase = l'.phase →
        pid = pid') ∧
    ∀ e c', Cluster.Step c e c' → ∀ p ph row, c.db.lock p ph = some row →
      (c'.db.lock p ph).map (·.id) ≠ some row.id →
        ∀ pid l q, task c (.inl pid) = some (.worker l, q) → l.id ≠ row.id := by
  have hex := run.invariant Exclusive all (.start free) fun _ _ _ hI hstep hw =>
    hI.step (Cluster.step_move hstep) hw
  refine ⟨fun pid pid' l l' q q' ht ht' hport hphase => hex.unique ht ht' hport hphase, ?_⟩
  · intro e c' hstep p ph row hrow hgone pid l q ht hid
    have hkept := hex.keeps (Cluster.step_move hstep) ht
    have hheld : Mentions c l := .inl ⟨.inl pid, holder_of_task ht rfl (by simp)⟩
    obtain ⟨rfl, rfl, _⟩ := (hex.regular.ids.named l hheld).2 p ph row hrow hid.symm
    exact hgone (hkept.trans (congrArg some hid))

def killsNothing : Event → Bool
  | .killChildren _ _ => false
  | _ => true

theorem fetch_exclusive : ∃ h c l q, Run Cluster.Step (Cluster.start freshDb) h c ∧
    (∃ x ∈ h, x.2 = .killChildren 1 none) ∧ task c (.inl 20) = some (.worker l, q) ∧
      ∀ pid l' q', task c (.inl pid) = some (.worker l', q') → l'.port.id = l.port.id →
        l'.phase = l.phase → pid = 20 := by
  obtain ⟨c₁, hkill, hf⟩ : ∃ c₁, Cluster.next (Cluster.start freshDb) (.killChildren 1 none) = some c₁ ∧
      (history Cluster.next c₁ (taken 2 samplePort .fetch 20) []).any
        (fun x : List (Cluster × Event) × Cluster => x.1.all (fun y => killsNothing y.2) &&
          (task x.2 (.inl 20)).any fun t => t.1.isWorker fun _ => true) = true :=
    ⟨_, rfl, by decide +kernel⟩
  obtain ⟨h, c, rest, hf⟩ := reached_of_history Cluster.next hf
  simp only [Bool.and_eq_true, List.all_eq_true, Option.any_eq_true] at hf
  obtain ⟨hquiet, ⟨k, q⟩, ht, hk⟩ := hf
  cases k with
  | worker l =>
    have run := Run.trans (.next .start hkill) rest
    have all : AllSteps Waited (h ++ [(Cluster.start freshDb, .killChildren 1 none)]) := by
      rintro ⟨s, e⟩ hx
      rcases List.mem_append.1 hx with hx | hx
      · have he := hquiet _ hx
        cases e with
        | killChildren => cases he
        | _ => trivial
      · cases List.mem_singleton.1 hx
        rintro pid l q ⟨⟩
    exact ⟨_, c, l, q, run, ⟨_, List.mem_append_right _ (List.mem_singleton.2 rfl), rfl⟩, ht,
      fun pid l' q' ht' hport hphase =>
        (workers_exclusive (fun _ _ => rfl) run all).1 pid 20 l' l q' q ht' ht hport hphase⟩
  | _ => cases hk

/-- A slave fetches and builds a port when SIGTERM reaches it. The fetch worker ends,
which is enough for `kill_children`; the row of the build goes, and another slave
builds the port beside the first worker. -/
theorem killed_build_shared : ∃ h c l l' q q', Run Cluster.Step (Cluster.start freshDb) h c ∧
    task c (.inl 30) = some (.worker l, q) ∧ task c (.inl 50) = some (.worker l', q') ∧
      l.port.id = l'.port.id ∧ l.phase = l'.phase := by
  obtain ⟨h, c, run, hf⟩ := reached_of_history Cluster.next (s := Cluster.start freshDb)
    (w := taken 1 samplePort .fetch 20 ++ calls 20 3 ++ taken 1 samplePort .build 30 ++
      [.interrupt 20 .int, .exit 20, .killChildren 1 (some 20), .killNext 1 11] ++ calls 11 10 ++
      [.exit 11, .killNext 1 12] ++ calls 12 10 ++ [.exit 12] ++
      taken 2 samplePort .fetch 40 ++ calls 40 3 ++ taken 2 samplePort .build 50)
    (f := fun x => (task x.2 (.inl 30)).any fun t => (task x.2 (.inl 50)).any fun u =>
      t.1.isWorker fun l => u.1.isWorker fun l' =>
        decide (l.port.id = l'.port.id) && decide (l.phase = l'.phase)) (by decide +kernel)
  simp only [Option.any_eq_true] at hf
  obtain ⟨⟨k, q⟩, ht, ⟨k', q'⟩, ht', hk⟩ := hf
  cases k <;> cases k' <;> simp only [Kind.isWorker, Bool.false_eq_true, Bool.and_eq_true, decide_eq_true_eq] at hk
  exact ⟨h, c, _, _, q, q', run, ht, ht', hk⟩

end Mports.MagusShutdown
