import Mports.MagusStanding
import Mports.MagusRunning

set_option autoImplicit false

namespace Mports.MagusStranded
open MagusTables MagusStatements MagusWorker MagusFootprint MagusEffects MagusCluster
open MagusHolders MagusChildren MagusTasks MagusConduct MagusOwnership MagusStanding MagusRunning
open MagusEndings MagusTending StatementPrograms LabelledRuns

/-- A fetch, test or scan worker that may yet set its phase to 'running'. -/
def Fresh (l : Lock) (q : Magus Unit) : Prop := l.phase ≠ .build ∧ ¬ Begun q

theorem fresh_back (l : Lock) (o : Op) (κ : Except Exn o.Res → Magus Unit) (r : Except Exn o.Res)
    (h : Fresh l (κ r)) : Fresh l (.call o κ) :=
  ⟨h.1, fun hb => h.2 (hb.answer r)⟩

def NoFork (o : Op) : Prop := ∀ ph, o ≠ .fork ph

theorem run_until (l : Lock) : Until (S := magus) NoFork Begun (run l) := by
  have hresult : ∀ p ph, Uses (S := magus) NoFork (fun _ _ => True) (MagusPort.phaseResult p ph) :=
    fun p ph => phaseResult_uses (by simp [NoFork]) (by simp [NoFork])
  have ended : ∀ q : Magus Unit, q.Ended → Begun q := by
    intro q hq
    cases q with
    | call => cases hq
    | _ => trivial
  refine Until.tryCatch (C := Begun) ?_ fun q hq => Uses.tryCatch hq (afterException_begun l)
  refine Until.bind (A := fun _ _ => True) (fun _ _ => trivial) (Uses.issue (by simp [NoFork]))
    (fun found => ?_) ended
  unfold Prog.when
  split
  · exact Until.bind (A := fun _ _ => True) (fun _ _ => trivial) (Uses.bind (hresult _ _) fun _ =>
      Uses.issue (by simp [NoFork])) (fun _ => .reached (afterStart_begun l)) ended
  · exact .reached (Uses.ret _)

section Writers
variable {c : Cluster} {pid : Pid} {k : Kind} {o : Op} {κ : Except Exn o.Res → Magus Unit}
  {ch : Choice} {r : Except Exn o.Res} {db : Db} {p : PortId} {ph : Phase}

theorem running_writer {handled : Lock → Prop} (conduct : Conduct handled c)
    (ht : task c (.inl pid) = some (k, .call o κ)) (ha : answer c.db o ch = some (r, db))
    (hno : c.db.phaseStatus p ph ≠ some .running) (hyes : db.phaseStatus p ph = some .running) :
    ∃ l, k = .worker l ∧ l.port.id = p ∧ l.phase = ph ∧ ¬ Begun (.call o κ) := by
  obtain ⟨hstarts, s, rfl, hw⟩ := answer_starts ha hno hyes
  have hop := conduct.op ht
  cases k with
  | worker l =>
    rcases hop with hop | ⟨_, hop⟩
    · obtain ⟨_, machine, rfl⟩ := own_starts hop hstarts
      exact ⟨l, rfl, hw.1, hw.2, fun hb => hb.1.1 hstarts⟩
    · exact absurd hstarts (reset_starts hop)
  | makeChild l => exact absurd rfl (own_starts hop hstarts).1.2
  | burial l code =>
    rcases hop with rfl | ⟨_, hop⟩
    · cases hw
    · split at hop
      · exact absurd hstarts (reset_starts hop)
      · cases (own_starts hop hstarts).1
  | killer l =>
    rcases hop with rfl | hop
    · cases hw
    · exact absurd hstarts (reset_starts hop)
  | resetPort q => exact absurd hstarts (reset_starts hop)
  | index q => exact absurd hstarts (index_starts hop)
  | _ => cases hop

end Writers

def ChildOf (k : Kind) (l : Lock) : Prop := k = .makeChild l ∨ ∃ st, k = .childCorpse l st

structure Tending (c : Cluster) : Prop where
  standing : Standing Fresh c
  rising : ∀ pid l q, task c (.inl pid) = some (.worker l, q) → Until (S := magus) NoFork Begun q
  known : ∀ x k q l, task c x = some (k, q) → under k = some l → l.id < c.db.nextLock
  parents : ∀ x y k k' q q' l l', task c x = some (k, q) → ChildOf k l →
    task c y = some (k', q') → Counted Fresh k' q' l' → l'.id ≠ l.id
  tends : ∀ x k q, task c x = some (k, q) → Tends Kept Finished k q c.db
  held : ∀ p ph, ph ≠ .build → c.db.phaseStatus p ph = some .running → c.db.lock p ph ≠ none

/-- While a phase is unfinished, nothing that happens to its worker or its make child is
passed over in silence; and `kill_children` waits for the workers that may yet start one. -/
structure Tended (c : Cluster) (e : Event) : Prop where
  worker : ∀ db x l o κ r, task c x = some (.worker l, .call o κ) →
    Answered c e db x (.worker l) o r → Unfinished c.db l → ¬ Silences l c.db o r
  child : ∀ db x l o κ err, task c x = some (.makeChild l, .call o κ) →
    Answered c e db x (.makeChild l) o (.error err) → Unfinished c.db l → ¬ (κ (.error err)).Ended
  signal : ∀ pid sig core l q, e = .signal pid sig core →
    task c (.inl pid) = some (.worker l, q) → ¬ Unfinished c.db l
  leaves : Leaves Fresh c e

section Steps
variable {c c' : Cluster} {e : Event}

theorem counted_before (links : Links c) (hm : Move c e c') {y : Owner} {k : Kind} {q : Magus Unit}
    {l : Lock} (ht : task c' y = some (k, q)) (hs : Counted Fresh k q l) :
    (∃ y₀ k₀ q₀, task c y₀ = some (k₀, q₀) ∧ Counted Fresh k₀ q₀ l) ∨ l.id = c.db.nextLock := by
  rcases accounted links hm y _ ht with ⟨hold, _⟩ | hb
  · exact .inl ⟨y, k, q, hold, hs⟩
  generalize c'.db = db at hb
  cases hb with
  | answered hold how =>
    refine .inl ⟨y, k, _, hold, ?_⟩
    rcases hs with ⟨hk, hfresh⟩ | hs
    · exact .inl ⟨hk, fresh_back l _ _ _ hfresh⟩
    · exact .inr hs
  | started hold =>
    rcases hs with ⟨hk, hfresh⟩ | ⟨hk, _⟩ <;> cases hk
    exact .inl ⟨_, _, _, hold, .inr ⟨rfl, hfresh⟩⟩
  | inserted hold hfree =>
    rcases hs with ⟨hk, _⟩ | ⟨hk, _⟩ <;> cases hk
    exact .inr rfl
  | _ => rcases hs with ⟨hk, _⟩ | ⟨hk, _⟩ <;> cases hk

namespace Tending

theorem start {db : Db} (free : ∀ p ph, db.lock p ph = none)
    (quiet : ∀ p ph, ph ≠ .build → db.phaseStatus p ph ≠ some .running) :
    Tending (Cluster.start db) where
  standing := .start free
  rising := fun _ _ _ h => by cases h
  known := fun x _ _ _ h => by cases x <;> cases h
  parents := fun x _ _ _ _ _ _ _ h => by cases x <;> cases h
  tends := fun x _ _ h => by cases x <;> cases h
  held := fun p ph hph h => absurd h (quiet p ph hph)

theorem bystander (t : Tending c) {x : Owner} {k : Kind} {q : Magus Unit} {l : Lock} {db : Db}
    (ht : task c x = some (k, q)) (hl : under k = some l) (hi : Interferes c e x db)
    (hs : ¬ Unfinished c.db l) : ¬ Unfinished db l := by
  rintro ⟨hph, hlocked, hrunning⟩
  obtain ⟨y, hne, hm⟩ := hi
  cases hm with
  | still => exact hs ⟨hph, hlocked, hrunning⟩
  | tick => exact hs ⟨hph, hlocked, hrunning⟩
  | insert => exact hs ⟨hph, locked_of_insert (t.known x k q l ht hl) hlocked, hrunning⟩
  | @call pid k' o κ ch r db hcall ha =>
    have hbefore : c.db.Locked l := Effect.locked_before (.inl ⟨ch, ha⟩) hlocked
    obtain ⟨l', rfl, hport, hphase, hbegun⟩ := running_writer t.standing.regular.conduct hcall ha
      (fun h => hs ⟨hph, hbefore, h⟩) hrunning
    -- the worker that starts the phase has the same row, so the same id
    have hcounted : Counted Fresh (.worker l') (.call o κ) l' := .inl ⟨rfl, hphase ▸ hph, hbegun⟩
    have hid : l'.id = l.id := by
      have h := t.standing.locked _ _ _ _ hcall hcounted
      rw [Db.Locked, hport, hphase, hbefore, Option.some.injEq] at h
      exact h.symm
    have hworker : holder c (.inl pid) = some l' := holder_of_task hcall rfl (by simp)
    have mine : ∀ {k : Kind} {q : Magus Unit}, task c x = some (k, q) → k.lock = some l →
        (∀ l', k ≠ .makeChild l') → False := fun ht hl hk =>
      hne (congrArg some (t.standing.regular.ids.unique _ _ _ _ hworker (holder_of_task ht hl hk) hid))
    cases k with
    | worker | corpse | burial | hand => exact mine ht hl (by simp)
    | makeChild => cases hl; exact t.parents _ _ _ _ _ _ _ _ ht (.inl rfl) hcall hcounted hid
    | childCorpse => cases hl; exact t.parents _ _ _ _ _ _ _ _ ht (.inr ⟨_, rfl⟩) hcall hcounted hid
    | killer =>
      cases hl
      rcases x with pid' | machine
      · exact t.standing.killer_machine hcall hcounted ht hid.symm
      · cases hd : c.daemon machine <;> rw [task_daemon hd] at ht <;> cases ht
    | _ => cases hl

theorem parents_step (t : Tending c) (hm : Move c e c') : ∀ x y k k' q q' l l',
    task c' x = some (k, q) → ChildOf k l → task c' y = some (k', q') → Counted Fresh k' q' l' →
      l'.id ≠ l.id := by
  intro x y k k' q q' l l' hx hchild hy hcounted hid
  have links := t.standing.regular.links
  obtain ⟨y₀, k₀, q₀, hy₀, hcounted₀⟩ | hnew := counted_before links hm hy hcounted
  · have old : ∀ {k q}, task c x = some (k, q) → ChildOf k l → False := fun hx hchild =>
      t.parents _ _ _ _ _ _ _ _ hx hchild hy₀ hcounted₀ hid
    rcases accounted links hm x _ hx with ⟨hold, _⟩ | hb
    · exact old hold hchild
    generalize c'.db = db at hb
    cases hb with
    | answered hold how => exact old hold hchild
    | @forked pid _ l₁ ph κ hold =>
      rcases hchild with hk | ⟨_, hk⟩ <;> cases hk
      -- the forking worker is the one that would be fresh, and it has begun
      have hworker : holder c (.inl pid) = some l := holder_of_task hold rfl (by simp)
      have hholder : holder c y₀ = some l' := holder_of_task hy₀ hcounted₀.lock hcounted₀.not_child
      obtain rfl := t.standing.regular.ids.unique _ _ _ _ hworker hholder hid.symm
      rw [hold] at hy₀
      cases hy₀
      rcases hcounted₀ with ⟨hk, hfresh⟩ | ⟨hk, _⟩ <;> cases hk
      exact hfresh.2 ((t.rising _ _ _ hold).of_not fun h => h ph rfl)
    | childSignaled hold | childEnded hold =>
      rcases hchild with hk | ⟨_, hk⟩ <;> cases hk
      exact t.parents _ _ _ _ _ _ _ _ hold (.inl rfl) hy₀ hcounted₀ hid
    | _ => rcases hchild with hk | ⟨_, hk⟩ <;> cases hk
  · -- a new lock has an id no child knows
    have old : ∀ {x k q}, task c x = some (k, q) → under k = some l → False := fun hx hl =>
      absurd (hid.symm.trans hnew) (Nat.ne_of_lt (t.known _ _ _ l hx hl))
    have hl : under k = some l := by
      rcases hchild with rfl | ⟨_, rfl⟩ <;> rfl
    rcases accounted links hm x _ hx with ⟨hold, _⟩ | hb
    · exact old hold hl
    generalize c'.db = db at hb
    cases hb with
    | answered hold how => exact old hold hl
    | forked hold | childSignaled hold | childEnded hold =>
      rcases hchild with hk | ⟨_, hk⟩ <;> cases hk
      exact old hold rfl
    | _ => rcases hchild with hk | ⟨_, hk⟩ <;> cases hk

theorem tends_step (t : Tending c) (hm : Move c e c') (hw : Tended c e) :
    ∀ x k q, task c' x = some (k, q) → Tends Kept Finished k q c'.db := by
  refine MagusTending.tends_step programs t.standing.regular.links hm
    ⟨fun db x l o κ r ht how hs => hw.worker db x l o κ r ht how (not_not.1 hs),
      fun db x l o κ err ht how hs => hw.child db x l o κ err ht how (not_not.1 hs), hw.signal⟩
    (fun x k q l P ht hl hi hP hs => ?_) t.tends
  rcases hP with rfl | ⟨row, rfl⟩
  · exact t.bystander ht hl hi hs
  · obtain ⟨y, _, hmoved⟩ := hi
    generalize c'.db = db at hmoved
    cases hmoved with
    | call _ ha => exact answer_ports ha hs
    | _ => exact hs

/-- A row that is 'running' keeps its lock, and gets 'running' from a worker that has one. -/
theorem held_step (t : Tending c) (hm : Move c e c') : ∀ p ph, ph ≠ .build →
    c'.db.phaseStatus p ph = some .running → c'.db.lock p ph ≠ none := by
  intro p ph hph hrunning
  obtain ⟨y, hmoved⟩ := moved hm
  generalize c'.db = db at hmoved hrunning ⊢
  cases hmoved with
  | still => exact t.held p ph hph hrunning
  | tick => exact t.held p ph hph hrunning
  | insert =>
    change put _ _ _ _ _ _ ≠ none
    rw [put_apply]
    split
    · simp
    · exact t.held p ph hph hrunning
  | @call pid k o κ ch r db hcall ha =>
    intro hgone
    have hheld : c.db.lock p ph ≠ none := by
      by_cases hbefore : c.db.phaseStatus p ph = some .running
      · exact t.held p ph hph hbefore
      · obtain ⟨l, rfl, rfl, rfl, hbegun⟩ :=
          running_writer t.standing.regular.conduct hcall ha hbefore hrunning
        have hlocked := t.standing.locked _ _ _ _ hcall (.inl ⟨rfl, hph, hbegun⟩)
        intro hnone
        rw [Db.Locked, hnone] at hlocked
        cases hlocked
    obtain ⟨l, rfl, hlocked, rfl, rfl, hover⟩ :=
      over_deleted t.standing.regular.conduct t.tends hcall ha hheld hgone
    refine hover ⟨hph, hlocked, ?_⟩
    by_contra hbefore
    exact (answer_starts ha hbefore hrunning).1

theorem step (t : Tending c) (hm : Move c e c') (hw : Tended c e) : Tending c' where
  standing := t.standing.step fresh_back hm hw.leaves
  rising := by
    intro pid l q ht
    rcases worker_before t.standing.regular.links hm ht with ⟨q', hold, hq⟩ | ⟨_, _, _, rfl⟩
    · have hrising := t.rising pid l q' hold
      rcases hq with rfl | ⟨o, κ, r, rfl, rfl⟩
      · exact hrising
      · exact hrising.answer Begun.answer r
    · exact run_until l
  known := MagusTending.known_step t.standing.regular hm t.known
  parents := t.parents_step hm
  tends := t.tends_step hm hw
  held := t.held_step hm

end Tending
end Steps

/-- In every run in which no exception and no signal is passed over in silence while a
fetch, test or scan phase runs, a phase that is 'running' has its row in `locks`. -/
theorem running_locked {db : Db} (free : ∀ p ph, db.lock p ph = none)
    (quiet : ∀ p ph, ph ≠ .build → db.phaseStatus p ph ≠ some .running)
    {h : List (Cluster × Event)} {c : Cluster} (run : Run Cluster.Step (Cluster.start db) h c)
    (all : AllSteps Tended h) : ∀ p ph, ph ≠ .build → c.db.phaseStatus p ph = some .running →
      ∃ row, c.db.lock p ph = some row := by
  have ht := run.invariant Tending all (.start free quiet) fun _ _ _ hI hstep hw =>
    hI.step (Cluster.step_move hstep) hw
  exact fun p ph hph hrunning => Option.ne_none_iff_exists'.1 (ht.held p ph hph hrunning)

/-- A worker is started, or one whose phase is not 'running' makes a call. -/
def BeginsFresh (c : Cluster) : Event → Bool
  | .call pid _ => (task c (.inl pid)).all fun t =>
      t.1.isWorker fun l => decide (c.db.phaseStatus l.port.id l.phase ≠ some .running)
  | e => Starts e

/-- A worker takes a port to fetch, up to the statement that sets the phase to 'running'. -/
theorem fetch_locked : ∃ h c, Run Cluster.Step (Cluster.start freshDb) h c ∧
    c.db.phaseStatus 0 .fetch = some .running ∧ ∃ row, c.db.lock 0 .fetch = some row := by
  obtain ⟨h, c, run, hf⟩ := reached_of_history Cluster.next (s := Cluster.start freshDb)
    (w := taken 1 samplePort .fetch 20 ++ calls 20 3)
    (f := fun x => x.1.all (fun y => BeginsFresh y.1 y.2) &&
      decide (x.2.db.phaseStatus 0 .fetch = some .running)) (by decide +kernel)
  simp only [Bool.and_eq_true, List.all_eq_true, decide_eq_true_eq] at hf
  obtain ⟨hsteps, hrunning⟩ := hf
  have all : AllSteps Tended h := by
    rintro ⟨s, e⟩ hx
    have he := hsteps _ hx
    have idle : ∀ {db x k o r q}, task s x = some (k, q) → Answered s e db x k o r →
        ∀ l, k = .worker l ∨ k = .makeChild l → ¬ Unfinished s.db l := by
      rintro db x k o r q ht how l hk ⟨_, _, hrunning⟩
      cases how with
      | chosen ha =>
        simp only [BeginsFresh, ht, Option.all_some] at he
        rcases hk with rfl | rfl
        · exact of_decide_eq_true he hrunning
        · cases he
      | _ => cases he
    refine ⟨fun db x l o κ r ht how hs => absurd hs (idle ht how l (.inl rfl)),
      fun db x l o κ err ht how hs => absurd hs (idle ht how l (.inr rfl)), ?_, ?_⟩
    · rintro pid sig core l q rfl
      cases he
    · cases e with
      | killChildren => cases he
      | _ => trivial
  exact ⟨h, c, run, hrunning,
    running_locked (fun _ _ => rfl) (fun _ _ _ hr => by cases hr) run all 0 .fetch (by decide)
      hrunning⟩

/-- The make child of a fetch loses the database and exits with 0; the worker ends as
if the fetch were over, and the lock goes with the row still 'running'. -/
theorem lost_connection_strands : ∃ h c, Run Cluster.Step (Cluster.start freshDb) h c ∧
    c.db.phaseStatus 0 .fetch = some .running ∧ c.db.lock 0 .fetch = none := by
  obtain ⟨h, c, run, hf⟩ := reached_of_history Cluster.next (s := Cluster.start freshDb)
    (w := taken 1 samplePort .fetch 20 ++ calls 20 7 ++ [.fork 20 21, .call 21 .done,
      .call 21 (.results { summary := .pass }), .call 21 (.fail "DBI connection lost"), .exit 21,
      .waited 20] ++ calls 20 4 ++ released 20)
    (f := fun x => decide (x.2.db.phaseStatus 0 .fetch = some .running ∧ x.2.db.lock 0 .fetch = none))
    (by decide +kernel)
  exact ⟨h, c, run, of_decide_eq_true hf⟩

end Mports.MagusStranded
