import Mports.MagusConduct

set_option autoImplicit false

namespace Mports.MagusRebuilds
open MagusTables MagusStatements MagusEffects MagusCluster MagusChildren
open MagusTasks MagusConduct LabelledRuns

/-- The last statement of a `reset` of the port; nothing but `reset` writes 'untested'. -/
def Resets (p : PortId) (c : Cluster) (e : Event) : Prop :=
  ∃ pid ch k q, e = .call pid ch ∧ task c (.inl pid) = some (k, q) ∧
    q.pending = some (.sql (.updateStatus p .untested))

instance (p : PortId) (c : Cluster) : (e : Event) → Decidable (Resets p c e)
  | .call pid _ => decidable_of_iff ((task c (.inl pid)).any fun t =>
      t.2.pending = some (.sql (.updateStatus p .untested))) (by
        simp [Resets, Option.any_eq_true])
  | .fork .. | .waited .. | .interrupt .. | .signal .. | .exit .. | .select .. | .insert ..
  | .giveUp .. | .startChild .. | .forkFailed .. | .reap .. | .bury .. | .killChildren ..
  | .killNext .. | .resetPort .. | .index .. | .indexDepends .. | .tick =>
      .isFalse (by simp [Resets])

/-- A build of the port has come to its end, and nothing of it is left. -/
structure Finished (p : PortId) (c : Cluster) : Prop where
  indexed : p ∈ c.db.tree.ports.map (·.id)
  result : c.db.status p ≠ .untested
  unlocked : c.db.lock p .build = none
  concluded : ∀ x k q, task c x = some (k, q) → ¬ Builds p k

/-- A build lock for the port is inserted only while the port is still untested. -/
def Fresh (p : PortId) (c : Cluster) (e : Event) : Prop :=
  ∀ machine row, e = .insert machine → c.daemon machine = .picked row .build → row.id = p →
    c.db.lock p .build = none → c.db.status p = .untested

/-- A build of the port begins: its lock is taken, or a worker starts under it. -/
def Begins (p : PortId) (c : Cluster) (e : Event) : Prop :=
  (∃ machine row, e = .insert machine ∧ c.daemon machine = .picked row .build ∧ row.id = p ∧
    c.db.lock p .build = none) ∨
  ∃ machine pid l, e = .startChild machine pid ∧ c.daemon machine = .hand l ∧ l.port.id = p ∧
    l.phase = .build

/-- An answer that makes a port untested is that of a reset, unless it indexes the port. -/
theorem answer_untested {db db' : Db} {o : Op} {ch : Choice} {r : Except Exn o.Res} {p : PortId}
    (h : answer db o ch = some (r, db')) (hp : p ∈ db.tree.ports.map (·.id))
    (hold : db.status p ≠ .untested) (hnew : db'.status p = .untested) :
    o = .sql (.updateStatus p .untested) := by
  rcases answer_cases h with rfl | ⟨s, x, rfl, hx⟩ | ⟨row, _, rfl⟩
  · exact absurd hnew hold
  · by_cases hw : WritesStatus p s
    · cases s with
      | updateStatus q st =>
        cases hw
        cases hx
        have hst : st = .untested := by simpa using hnew
        rw [hst]
      | insertPort row =>
        obtain ⟨T, hT, _⟩ := Option.map_eq_some_iff.1 hx
        cases hw
        simp [Tree.insertPort, hp] at hT
      | _ => cases hw
    · exact absurd ((exec_status hx hw).symm.trans hnew) hold
  · exact absurd hnew hold

theorem answer_indexed {db db' : Db} {o : Op} {ch : Choice} {r : Except Exn o.Res} {p : PortId}
    (h : answer db o ch = some (r, db')) (hp : p ∈ db.tree.ports.map (·.id)) :
    p ∈ db'.tree.ports.map (·.id) := by
  obtain ⟨row, hrow, rfl⟩ := List.mem_map.1 hp
  exact List.mem_map_of_mem (answer_ports h hrow)

theorem result_kept {p : PortId} {c c' : Cluster} {e : Event} (hm : Move c e c')
    (hp : p ∈ c.db.tree.ports.map (·.id)) (hr : ¬ Resets p c e) (hs : c.db.status p ≠ .untested) :
    c'.db.status p ≠ .untested := by
  obtain ⟨y, hmoved⟩ := moved hm
  generalize c'.db = db at hmoved
  cases hmoved with
  | @call pid k o κ ch r db ht ha =>
    intro hnew
    obtain rfl := answer_untested ha hp hs hnew
    exact hr ⟨pid, ch, k, _, rfl, ht, rfl⟩
  | _ => exact hs

theorem indexed_kept {p : PortId} {c c' : Cluster} {e : Event} (hm : Move c e c')
    (hp : p ∈ c.db.tree.ports.map (·.id)) : p ∈ c'.db.tree.ports.map (·.id) := by
  obtain ⟨y, hmoved⟩ := moved hm
  generalize c'.db = db at hmoved
  cases hmoved with
  | call ht ha => exact answer_indexed ha hp
  | _ => exact hp

namespace Finished
variable {p : PortId} {c c' : Cluster} {e : Event}

theorem not_begins (h : Finished p c) (hf : Fresh p c e) : ¬ Begins p c e := by
  rintro (⟨machine, row, he, hd, rfl, hfree⟩ | ⟨machine, pid, l, _, hd, hp, hph⟩)
  · exact h.result (hf machine row he hd rfl hfree)
  · exact h.concluded _ _ _ (task_daemon hd) ⟨l, rfl, hp, hph⟩

theorem over_step (h : Finished p c) (links : Links c) (hm : Move c e c') (hf : Fresh p c e) :
    ∀ x k q, task c' x = some (k, q) → ¬ Builds p k := by
  rintro x k q ht ⟨l, hl, hp, hph⟩
  rcases lock_before links hm ht hl with ⟨y, k₀, q₀, hold, hl₀⟩ | ⟨machine, row, ph, he, hd, hfree, rfl⟩
  · exact h.concluded y k₀ q₀ hold ⟨l, hl₀, hp, hph⟩
  · cases hph
    exact h.not_begins hf (.inl ⟨machine, row, he, hd, hp, hp ▸ hfree⟩)

theorem step (h : Finished p c) (links : Links c) (hm : Move c e c') (hf : Fresh p c e)
    (hr : ¬ Resets p c e) : Finished p c' := by
  refine ⟨indexed_kept hm h.indexed, result_kept hm h.indexed hr h.result, ?_, h.over_step links hm hf⟩
  obtain ⟨y, hmoved⟩ := moved hm
  generalize c'.db = db at hmoved
  cases hmoved with
  | @insert machine row ph ht hfree =>
    change put c.db.lock row.id ph _ p .build = none
    rw [put_apply, if_neg]
    · exact h.unlocked
    · rintro ⟨rfl, rfl⟩
      obtain ⟨_, hx, hd⟩ := daemon_picked ht
      cases hx
      exact h.not_begins hf (.inl ⟨machine, row, rfl, hd, rfl, hfree⟩)
  | call ht ha =>
    by_contra hne
    obtain ⟨row, hrow⟩ := Option.ne_none_iff_exists'.1 hne
    exact absurd (answer_lock_sub ha hrow) (by simp [h.unlocked])
  | _ => exact h.unlocked

end Finished

/-- A port whose build has finished is not built again before it is reset exactly when
no build lock is inserted for it on a SELECT that is out of date. -/
theorem not_rebuilt_iff {db : Db} {p : PortId} {h h' : List (Cluster × Event)} {c c' : Cluster}
    (run : Run Cluster.Step (Cluster.start db) h c) (finished : Finished p c)
    (rest : Run Cluster.Step c h' c') (unreset : AllSteps (fun c e => ¬ Resets p c e) h') :
    (∀ x ∈ h', ¬ Begins p x.1 x.2) ↔ AllSteps (Fresh p) h' := by
  have links : Links c := run.invariant Links (K := fun _ _ => True) (fun _ _ => trivial)
    (.start db) fun _ _ _ hl hstep _ => hl.step (Cluster.step_move hstep)
  have reach : ∀ {h' c'}, Run Cluster.Step c h' c' →
      AllSteps (fun c e => Fresh p c e ∧ ¬ Resets p c e) h' → Links c' ∧ Finished p c' :=
    fun rest all => rest.invariant (fun c => Links c ∧ Finished p c) all ⟨links, finished⟩
      fun _ _ _ hI hstep hok => ⟨hI.1.step (Cluster.step_move hstep),
        hI.2.step hI.1 (Cluster.step_move hstep) hok.1 hok.2⟩
  constructor
  · rintro hnot ⟨c, e⟩ hx machine row he hd hrow hfree
    exact absurd (.inl ⟨machine, row, he, hd, hrow, hfree⟩) (hnot _ hx)
  · intro fresh x hx
    have all : AllSteps (fun c e => Fresh p c e ∧ ¬ Resets p c e) h' :=
      fun x hx => ⟨fresh x hx, unreset x hx⟩
    obtain ⟨h'', hrun, hsuffix⟩ := rest.before hx
    exact (reach hrun (all.suffix hsuffix)).2.not_begins (fresh x hx)

theorem built_finished : Finished 0 (Cluster.start builtDb) where
  indexed := by simp [Cluster.start, builtDb, freshDb, samplePort]
  result := by simp [Cluster.start, builtDb]
  unlocked := rfl
  concluded := by
    intro x k q h
    cases x <;> cases h

def insertsNoBuild (c : Cluster) : Event → Bool
  | .insert machine => match c.daemon machine with
    | .picked _ ph => decide (ph ≠ .build)
    | _ => true
  | _ => true

theorem scan_not_rebuilt : ∃ h c, Run Cluster.Step (Cluster.start builtDb) h c ∧
    c.db.lock 0 .scan ≠ none ∧ ∀ x ∈ h, ¬ Begins 0 x.1 x.2 := by
  obtain ⟨h, c, rest, hf⟩ := reached_of_history Cluster.next (w := taken 1 samplePort .scan 20)
    (s := Cluster.start builtDb) (f := fun x => decide ((x.2.db.lock 0 .scan).isSome = true) &&
      (x.1.all fun y => decide (¬ Resets 0 y.1 y.2) && insertsNoBuild y.1 y.2)) (by decide +kernel)
  simp only [Bool.and_eq_true, List.all_eq_true, decide_eq_true_eq] at hf
  refine ⟨h, c, rest, by simpa [Option.isSome_iff_ne_none] using hf.1, ?_⟩
  refine (not_rebuilt_iff .start built_finished rest fun x hx => (hf.2 x hx).1).2 ?_
  rintro ⟨c, e⟩ hx machine row rfl hd _ _
  have hph := (hf.2 _ hx).2
  change c.daemon machine = _ at hd
  simp [insertsNoBuild, hd] at hph

def picksSample : Daemon → Bool
  | .picked row ph => decide (row.id = 0) && decide (ph = .build)
  | _ => false

/-- Slave 2 has selected the port when slave 1 builds it, with success, and deletes the
lock; then slave 2 takes the lock. -/
theorem stale_select_rebuilds : ∃ h c c', Run Cluster.Step (Cluster.start .empty) h c ∧
    (∀ x ∈ h, ¬ Resets 0 x.1 x.2) ∧ c.db.status 0 = .pass ∧ c.db.lock 0 .build = none ∧
      Cluster.Step c (.insert 2) c' ∧ Begins 0 c (.insert 2) ∧ c'.db.lock 0 .build ≠ none := by
  obtain ⟨h, c, run, hf⟩ := reached_of_history Cluster.next (s := Cluster.start .empty)
    (w := indexed ++ taken 1 samplePort .fetch 20 ++ calls 20 3 ++
      [.select 2 1 none .build samplePort] ++ taken 1 samplePort .build 30 ++ calls 30 7 ++
        passed 30 40 ++ uploaded 30 40 ++ released 30)
    (f := fun x => (x.1.all fun y => decide (¬ Resets 0 y.1 y.2)) &&
      decide (x.2.db.status 0 = .pass) && decide (x.2.db.lock 0 .build = none) &&
        picksSample (x.2.daemon 2) &&
          (x.2.next (.insert 2)).any fun c' : Cluster => (c'.db.lock 0 .build).isSome)
    (by decide +kernel)
  simp only [Bool.and_eq_true, List.all_eq_true, decide_eq_true_eq, Option.any_eq_true] at hf
  obtain ⟨⟨⟨⟨hresets, hpass⟩, hfree⟩, hd⟩, c', last, hlock⟩ := hf
  refine ⟨h, c, c', run, hresets, hpass, hfree, last, .inl ?_, by simpa [Option.isSome_iff_ne_none] using hlock⟩
  unfold picksSample at hd
  split at hd
  · rename_i row ph hpicked
    simp only [Bool.and_eq_true, decide_eq_true_eq] at hd
    exact ⟨2, row, rfl, hd.2 ▸ hpicked, hd.1, hfree⟩
  · cases hd

end Mports.MagusRebuilds
