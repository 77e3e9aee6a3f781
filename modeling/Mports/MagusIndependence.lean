import Mports.MagusConduct

set_option autoImplicit false

namespace Mports.MagusIndependence
open MagusTables MagusStatements MagusFootprint MagusEffects MagusCluster MagusHolders
open MagusTasks MagusConduct LabelledRuns

def phaseOf : Kind → Option Phase
  | .worker l | .corpse l _ | .burial l _ | .makeChild l | .childCorpse l _ | .killer l | .hand l =>
      some l.phase
  | .picked _ ph => some ph
  | .resetPort _ | .index _ => none

def actor : Event → Option Owner
  | .call pid _ | .fork pid _ | .waited pid | .interrupt pid _ | .signal pid _ _ | .exit pid
  | .reap pid | .bury pid => some (.inl pid)
  | .select machine _ _ _ _ | .insert machine | .giveUp machine | .startChild machine _
  | .forkFailed machine | .killChildren machine _ | .killNext machine _ => some (.inr machine)
  | .resetPort _ _ | .index _ _ _ _ | .indexDepends _ _ _ _ | .tick => none

/-- The step deals with a lock of the phase. -/
def Deals (c : Cluster) (e : Event) (ph : Phase) : Prop :=
  ∃ x k q, actor e = some x ∧ task c x = some (k, q) ∧ phaseOf k = some ph

/-- The step belongs to a reset by an administrator or to indexing. -/
def Administers (c : Cluster) (e : Event) : Prop :=
  ∃ x k q, actor e = some x ∧ task c x = some (k, q) ∧ phaseOf k = none

/-- The build side of the tables: every status, every build row, every build log. -/
def BuildSame (db db' : Db) : Prop :=
  db'.status = db.status ∧ (∀ p, db'.phaseRow p .build = db.phaseRow p .build) ∧
    db'.log = db.log ∧ ∀ p, db'.phaseLog p .build = db.phaseLog p .build

/-- `reset` is not called for a fetch, test or scan lock: SIGINT reaches no worker of
such a lock in `waitpid`, and `kill_children` comes to no such lock. -/
def Spared (c : Cluster) (e : Event) : Prop :=
  Handles (fun l => l.phase = .build) c e ∧
    ∀ machine pid, e = .killNext machine pid → ∀ l todo, c.daemon machine = .killing (l :: todo) →
      l.phase = .build

def NoKiller (c : Cluster) : Prop := ∀ x l q, task c x = some (.killer l, q) → l.phase = .build

theorem NoKiller.step {c c' : Cluster} {e : Event} (h : NoKiller c) (reg : MagusChildren.Links c)
    (hm : Move c e c') (hs : Spared c e) : NoKiller c' := by
  intro x l q ht
  rcases accounted reg hm x _ ht with ⟨ht, _⟩ | hb
  · exact h x l q ht
  generalize c'.db = db at hb
  generalize hk : (Kind.killer l, q).1 = k at hb
  cases hb with
  | answered ht how =>
    subst hk
    exact h _ l _ ht
  | killing hd =>
    cases hk
    exact hs.2 _ _ rfl _ _ hd
  | _ => cases hk

theorem own_other {l : Lock} {ok : Status → Prop} {s : Stmt} (h : OwnStmt l ok s)
    (hl : l.phase ≠ .build) (p : PortId) :
    ¬ WritesStatus p s ∧ ¬ WritesRow p .build s ∧ ¬ WritesLog p s ∧ ¬ WritesPhaseLog p .build s := by
  cases s <;> simp_all [OwnStmt, WritesStatus, WritesRow, WritesLog, WritesPhaseLog, eq_comm]

theorem deleteLock_other (l : Lock) (p : PortId) :
    ¬ WritesStatus p (.deleteLock l) ∧ ¬ WritesRow p .build (.deleteLock l) ∧
      ¬ WritesLog p (.deleteLock l) ∧ ¬ WritesPhaseLog p .build (.deleteLock l) := by
  simp [WritesStatus, WritesRow, WritesLog, WritesPhaseLog]

theorem op_other {k : Kind} {s : Stmt} {ph : Phase}
    (hk : phaseOf k = some ph) (hph : ph ≠ .build)
    (hkiller : ∀ l, k = .killer l → l.phase = .build)
    (hop : KindOp (fun l => l.phase = .build) k (.sql s)) (p : PortId) :
    ¬ WritesStatus p s ∧ ¬ WritesRow p .build s ∧ ¬ WritesLog p s ∧ ¬ WritesPhaseLog p .build s := by
  cases k with
  | worker l =>
    cases hk
    rcases hop with hop | ⟨hb, _⟩
    · exact own_other hop hph p
    · exact absurd hb hph
  | makeChild l =>
    cases hk
    exact own_other hop hph p
  | burial l code =>
    cases hk
    rcases hop with rfl | ⟨_, hop⟩
    · exact deleteLock_other l p
    · rw [if_neg hph] at hop
      exact own_other hop hph p
  | killer l =>
    cases hk
    exact absurd (hkiller l rfl) hph
  | resetPort p | index p => cases hk
  | _ => cases hop

theorem answer_same {db db' : Db} {o : Op} {ch : Choice} {r : Except Exn o.Res}
    (h : answer db o ch = some (r, db')) (hw : ∀ s, o = .sql s → ∀ p, ¬ WritesStatus p s ∧
      ¬ WritesRow p .build s ∧ ¬ WritesLog p s ∧ ¬ WritesPhaseLog p .build s) :
    BuildSame db db' :=
  ⟨funext fun p => answer_status h fun s hs => (hw s hs p).1,
    fun p => answer_phaseRow h fun s hs => (hw s hs p).2.1,
    funext fun p => answer_log h fun s hs => (hw s hs p).2.2.1,
    fun p => answer_phaseLog h fun s hs => (hw s hs p).2.2.2⟩

/-- A step that is no statement changes nothing of a build, and a statement does so
only under a build lock or in an administrator's hands. -/
theorem build_changes {c c' : Cluster} {e : Event} (h : Regular (fun l => l.phase = .build) c)
    (hk : NoKiller c) (hm : Move c e c') :
    BuildSame c.db c'.db ∨ Deals c e .build ∨ Administers c e := by
  obtain ⟨y, hmoved⟩ := moved hm
  generalize c'.db = db at hmoved
  cases hmoved with
  | still => exact .inl ⟨rfl, fun _ => rfl, rfl, fun _ => rfl⟩
  | tick => exact .inl ⟨rfl, fun _ => rfl, rfl, fun _ => rfl⟩
  | insert ht hfree => exact .inl ⟨rfl, fun _ => rfl, rfl, fun _ => rfl⟩
  | @call pid k o κ ch r db ht ha =>
    cases hph : phaseOf k with
    | none => exact .inr (.inr ⟨_, k, _, rfl, ht, hph⟩)
    | some ph =>
      by_cases hb : ph = .build
      · exact .inr (.inl ⟨_, k, _, rfl, ht, hb ▸ hph⟩)
      · refine .inl (answer_same ha ?_)
        rintro s rfl p
        exact op_other hph hb (fun l hl => hk _ l _ (hl ▸ ht)) (h.conduct.op ht) p

theorem deals_unique {c : Cluster} {e : Event} {ph : Phase} (h : Deals c e ph) (hph : ph ≠ .build) :
    ¬ Deals c e .build ∧ ¬ Administers c e := by
  obtain ⟨x, k, q, hx, ht, hk⟩ := h
  refine ⟨?_, ?_⟩ <;> rintro ⟨x', k', q', hx', ht', hk'⟩ <;> rw [hx] at hx' <;> cases hx' <;>
    rw [ht] at ht' <;> cases ht' <;> rw [hk] at hk' <;> cases hk'
  exact hph rfl

/-- Wherever no reset is called for a fetch, test or scan lock, a step that deals with
such a lock leaves every status, build row and build log as it is, and a step that
changes one deals with a build lock or is an administrator's. -/
theorem phases_independent {db : Db} (free : ∀ p ph, db.lock p ph = none) {h : List (Cluster × Event)}
    {c c' : Cluster} {e : Event} (run : Run Cluster.Step (Cluster.start db) h c)
    (all : AllSteps Spared h) (last : Cluster.Step c e c') :
    (∀ ph, ph ≠ .build → Deals c e ph → BuildSame c.db c'.db) ∧
      (¬ BuildSame c.db c'.db → Deals c e .build ∨ Administers c e) := by
  obtain ⟨hreg, hkill⟩ := run.invariant
    (fun c => Regular (fun l => l.phase = .build) c ∧ NoKiller c) all
    ⟨.start free, fun x l q ht => by cases x <;> cases ht⟩ fun s e t hI hstep hs =>
      ⟨hI.1.step (Cluster.step_move hstep) hs.1, hI.2.step hI.1.links (Cluster.step_move hstep) hs⟩
  have hlast := build_changes hreg hkill (Cluster.step_move last)
  refine ⟨fun ph hph hd => ?_, fun hn => hlast.resolve_left hn⟩
  obtain ⟨hb, ha⟩ := deals_unique hd hph
  exact hlast.resolve_right (by simp [hb, ha])

/-- A port is indexed and its only dependency does not resolve; a slave takes its fetch lock. -/
def fetchLocked : List Event :=
  indexed ++ .indexDepends 10 1 0 [.error "missing"] :: calls 10 4 ++
    [.exit 10, .select 1 1 (some ["fetch"]) .fetch samplePort, .insert 1]

instance (c : Cluster) (e : Event) (ph : Phase) : Decidable (Deals c e ph) :=
  decidable_of_iff ((actor e).any fun x => (task c x).any fun t => phaseOf t.1 = some ph) (by
    simp [Deals, Option.any_eq_true])

theorem fetch_independent : ∃ h c c', Run Cluster.Step (Cluster.start .empty) h c ∧
    Cluster.Step c (.call 10 .done) c' ∧ Deals c (.call 10 .done) .fetch ∧
      BuildSame c.db c'.db := by
  obtain ⟨h, c, run, hf⟩ := reached_of_history Cluster.next
    (w := fetchLocked ++ [.startChild 1 10]) (s := Cluster.start .empty)
    (f := fun x => (x.1.all fun y => match y.2 with
      | .interrupt _ _ | .killNext _ _ => false
      | _ => true) && (x.2.next (.call 10 .done)).isSome && decide (Deals x.2 (.call 10 .done) .fetch))
    (by decide +kernel)
  simp only [Bool.and_eq_true, List.all_eq_true, decide_eq_true_eq] at hf
  obtain ⟨⟨hquiet, hnext⟩, hdeals⟩ := hf
  obtain ⟨c', last⟩ := Option.isSome_iff_exists.1 hnext
  have spared : ∀ c e, (match e with
      | .interrupt _ _ | .killNext _ _ => false
      | _ => true) = true → Spared c e := by
    intro c e he
    refine ⟨?_, fun machine pid hk => by subst hk; cases he⟩
    cases e with
    | interrupt pid sig => cases he
    | _ => trivial
  refine ⟨h, c, c', run, last, hdeals, ?_⟩
  exact (phases_independent (fun _ _ => rfl) run (fun x hx => spared x.1 x.2 (hquiet x hx)) last).1
    .fetch (by decide) hdeals

/-- SIGTERM reaches the slave while the fetch lock is in its hand. The port has failed,
and `kill_children` makes it untested again. -/
theorem fetch_kill_resets_build : ∃ h c c', Run Cluster.Step (Cluster.start .empty) h c ∧
    Cluster.Step c (.call 11 .done) c' ∧ Deals c (.call 11 .done) .fetch ∧
      c.db.status 0 = .fail ∧ c'.db.status 0 = .untested ∧ ¬ BuildSame c.db c'.db := by
  obtain ⟨h, c, run, hf⟩ := reached_of_history Cluster.next
    (w := fetchLocked ++ [.killChildren 1 none, .killNext 1 11] ++ calls 11 9)
    (s := Cluster.start .empty)
    (f := fun x => decide (Deals x.2 (.call 11 .done) .fetch) && decide (x.2.db.status 0 = .fail) &&
      (x.2.next (.call 11 .done)).any fun c' : Cluster => decide (c'.db.status 0 = .untested))
    (by decide +kernel)
  simp only [Bool.and_eq_true, decide_eq_true_eq, Option.any_eq_true] at hf
  obtain ⟨⟨hdeals, hfail⟩, c', last, hreset⟩ := hf
  refine ⟨h, c, c', run, last, hdeals, hfail, hreset, fun hsame => ?_⟩
  rw [← hsame.1] at hfail
  rw [hfail] at hreset
  cases hreset

end Mports.MagusIndependence
