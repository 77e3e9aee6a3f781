import Mports.DependsClosures
import Mports.MagusUploads

set_option autoImplicit false

namespace Mports.MagusPackages
open MagusTables MagusDepends MagusStatements MagusReady MagusWorker
open MagusFootprint MagusEffects MagusCluster MagusHolders MagusChildren MagusTasks MagusConduct
open MagusOwnership MagusUploads StatementPrograms LabelledRuns

section Own

def Later (ph : Phase) : Prop := ph = .test ∨ ph = .scan

/-- The SELECT for a later phase answers no port that has a build lock. -/
def Unlocked (c : Cluster) : Event → Prop
  | .select _ _ _ ph row => Later ph → c.db.lock row.id .build = none
  | _ => True

def Supplied (c : Cluster) : Prop := ∀ x k q, task c x = some (k, q) →
  (∀ l, k.lock = some l → Later l.phase → c.db.PkgfileExists l.port) ∧
    ∀ row ph, k = .picked row ph → Later ph → c.db.PkgfileExists row

theorem move_exists {c c' : Cluster} {e : Event} (hm : Move c e c') {row : PortRow}
    (he : c.db.PkgfileExists row) : c'.db.PkgfileExists row := by
  obtain ⟨y, hmoved⟩ := moved hm
  exact Published.moved_exists hmoved he

theorem ready_good {db : Db} {ph : Phase} {row : PortRow} (hph : Later ph) (h : Ready db ph row) :
    (db.status row.id).Good := by
  rcases hph with rfl | rfl
  · exact h.2.1
  · exact h.2.1

theorem Supplied.step {c c' : Cluster} {e : Event} (h : Supplied c) (hp : Published c)
    (hm : Move c e c') (hu : Unlocked c e) : Supplied c' := by
  have links := hp.orderly.regular.links
  intro x k q ht
  refine ⟨fun l hl hph => move_exists hm ?_, fun row ph hk hph => move_exists hm ?_⟩
  · rcases lock_before links hm ht hl with ⟨y, k₀, q₀, hold, hl₀⟩ | ⟨machine, row, ph, _, hd, _, rfl⟩
    · exact (h y k₀ q₀ hold).1 l hl₀ hph
    · exact (h _ _ _ (task_daemon hd)).2 row ph rfl hph
  · subst hk
    rcases accounted links hm x _ ht with ⟨hold, _⟩ | hb
    · exact (h x _ q hold).2 row ph rfl hph
    generalize c'.db = db at hb
    generalize hk : (Kind.picked row ph, q).1 = k at hb
    cases hb with
    | answered hold how =>
      subst hk
      exact (h _ _ _ hold).2 row ph rfl hph
    | selected hsel =>
      cases hk
      obtain ⟨hmem, _, hready⟩ := hsel.ready
      exact hp.stored row hmem (hu hph) (ready_good hph hready)
    | _ => cases hk

/-- In an undisturbed run whose SELECTs for a test or a scan answer no port that has a
build lock, the port's own package is uploaded as long as such a worker lives. -/
theorem own_package_uploaded {db : Db} (free : ∀ p ph, db.lock p ph = none)
    (stored : ∀ row ∈ db.tree.ports, Stored row db) {h : List (Cluster × Event)} {c : Cluster}
    (run : Run Cluster.Step (Cluster.start db) h c)
    (all : AllSteps (fun c e => Undisturbed c e ∧ Unlocked c e) h) {x : Owner} {l : Lock}
    {q : Magus Unit} (ht : task c x = some (.worker l, q)) (hph : l.phase = .test ∨ l.phase = .scan) :
    c.db.PkgfileExists l.port := by
  have hI := run.invariant (fun c => Published c ∧ Supplied c) all
    ⟨.start free stored, fun x k q ht => by cases x <;> cases ht⟩ fun _ _ _ hI hstep hok =>
      ⟨hI.1.step (Cluster.step_move hstep) hok.1, hI.2.step hI.1 (Cluster.step_move hstep) hok.2⟩
  exact (hI.2 x _ q ht).1 l rfl hph

def Smooth : Event → Bool
  | .call _ .done | .call _ (.results _) | .fork _ _ | .waited _ | .exit _ | .select _ _ _ _ _
  | .insert _ | .startChild _ _ | .reap _ => true
  | .call _ (.command st _) => decide (st = .exited 0)
  | _ => false

theorem Smooth.undisturbed {e : Event} (h : Smooth e = true) (c : Cluster) : Undisturbed c e := by
  cases e with
  | call pid ch =>
    intro l q _
    cases ch with
    | command st out =>
      obtain rfl : st = .exited 0 := by simpa [Smooth] using h
      exact ⟨⟨0, rfl⟩, fun hne => absurd (by simp) hne⟩
    | done | results => trivial
    | _ => cases h
  | fork | waited | exit | select | insert | startChild | reap => trivial
  | _ => cases h

def selectsSample : Event → Bool
  | .select _ _ _ _ row => decide (row.id = 0)
  | _ => true

theorem scan_package_uploaded : ∃ h c l q, Run Cluster.Step (Cluster.start builtDb) h c ∧
    task c (.inl 20) = some (.worker l, q) ∧ l.phase = .scan ∧ c.db.PkgfileExists l.port := by
  obtain ⟨h, c, run, hf⟩ := reached_of_history Cluster.next (w := taken 1 samplePort .scan 20)
    (s := Cluster.start builtDb) (f := fun x => (x.1.all fun y => Smooth y.2 &&
        decide (y.1.db.lock 0 .build = none) && selectsSample y.2) &&
      (task x.2 (.inl 20)).any fun t => t.1.isWorker fun l => decide (l.phase = .scan))
    (by decide +kernel)
  simp only [Bool.and_eq_true, List.all_eq_true, decide_eq_true_eq, Option.any_eq_true] at hf
  obtain ⟨hall, ⟨k, q⟩, ht, hk⟩ := hf
  cases k with
  | worker l =>
    have hscan : l.phase = .scan := of_decide_eq_true hk
    refine ⟨h, c, l, q, run, ht, hscan, ?_⟩
    refine own_package_uploaded (fun _ _ => rfl) ?_ run ?_ ht (.inr hscan)
    · intro row hrow _
      obtain rfl : row = samplePort := by simpa [builtDb, freshDb] using hrow
      exact List.mem_cons_self
    · rintro ⟨c, e⟩ hx
      obtain ⟨⟨hsmooth, hfree⟩, hrow⟩ := hall _ hx
      refine ⟨Smooth.undisturbed hsmooth c, ?_⟩
      cases e with
      | select =>
        have hid := of_decide_eq_true hrow
        exact fun _ => hid ▸ hfree
      | _ => trivial
  | _ => cases hk

/-- The make child of a build publishes the result. Before the worker uploads the
package, another slave takes the port for a scan, and the file is missing. -/
theorem scan_before_upload : ∃ h c l κ, Run Cluster.Step (Cluster.start freshDb) h c ∧
    (∀ x ∈ h, Undisturbed x.1 x.2) ∧
      task c (.inl 50) = some (.worker l, .call (.ext (.pkgfileExists l.port)) κ) ∧
        l.phase = .scan ∧ ¬ c.db.PkgfileExists l.port := by
  obtain ⟨h, c, run, hf⟩ := reached_of_history Cluster.next (s := Cluster.start freshDb)
    (w := taken 1 samplePort .fetch 20 ++ calls 20 3 ++ taken 1 samplePort .build 30 ++ calls 30 7 ++
      passed 30 40 ++ taken 2 samplePort .scan 50 ++ calls 50 4)
    (f := fun x => (x.1.all fun y => Smooth y.2) &&
      (task x.2 (.inl 50)).any fun t => t.1.isWorker fun l =>
        decide (t.2.pending = some (.ext (.pkgfileExists l.port))) &&
          decide (l.phase = .scan) && decide (¬ x.2.db.PkgfileExists l.port)) (by decide +kernel)
  simp only [Bool.and_eq_true, List.all_eq_true, Option.any_eq_true] at hf
  obtain ⟨hall, ⟨k, q⟩, ht, hk⟩ := hf
  cases k with
  | worker l =>
    simp only [Kind.isWorker, Bool.and_eq_true, decide_eq_true_eq] at hk
    obtain ⟨⟨hpend, hscan⟩, hmissing⟩ := hk
    cases q with
    | call o κ =>
      cases hpend
      exact ⟨h, c, l, κ, run, fun x hx => Smooth.undisturbed (hall x hx) x.1, ht, hscan, hmissing⟩
    | _ => cases hpend
  | _ => cases hk

end Own

section Dependencies

/-- Selection and insertion are one step: the port is still ready when its lock is made. -/
def Atomic (c : Cluster) : Event → Prop
  | .insert machine => ∀ row ph, c.daemon machine = .picked row ph → c.db.lock row.id ph = none →
      Ready c.db ph row
  | _ => True

/-- A port that nothing will build again: it has a package, uploaded, and no build lock. -/
def Settled (p : PortId) (db : Db) : Prop :=
  (db.status p).Good ∧ db.lock p .build = none ∧ ∀ row ∈ db.tree.ports, row.id = p → db.PkgfileExists row

variable {c c' : Cluster} {e : Event}

theorem tree_same (hp : Published c) (hm : Move c e c') : c'.db.tree = c.db.tree := by
  obtain ⟨y, hmoved⟩ := moved hm
  generalize c'.db = db at hmoved
  cases hmoved with
  | call ht ha =>
    exact tree_writer hp.orderly.regular.conduct ht ha fun q hq => ((hp.unreset _ _ _ ht).1 q).2 hq
  | _ => rfl

theorem Settled.step {p : PortId} (h : Settled p c.db) (hp : Published c) (hm : Move c e c')
    (ha : Atomic c e) : Settled p c'.db := by
  obtain ⟨hgood, hfree, hexists⟩ := h
  refine ⟨?_, ?_, fun row hrow hid => move_exists hm (hexists row (tree_same hp hm ▸ hrow) hid)⟩
  all_goals
    obtain ⟨y, hmoved⟩ := moved hm
    generalize c'.db = db at hmoved
  · cases hmoved with
    | call ht hans =>
      by_contra hbad
      have hchanged : db.status p ≠ c.db.status p := fun he => hbad (he ▸ hgood)
      obtain ⟨l, _, hport, hph, hlocked⟩ := hp.status_writer ht hans hchanged
      rw [Db.Locked, hport, hph, hfree] at hlocked
      cases hlocked
    | _ => exact hgood
  · cases hmoved with
    | call _ hans =>
      cases hl : db.lock p .build with
      | none => rfl
      | some row => exact absurd (answer_lock_sub hans hl) (by simp [hfree])
    | @insert machine row ph ht hfree' =>
      change put c.db.lock row.id ph _ p .build = none
      rw [put_apply, if_neg]
      · exact hfree
      · rintro ⟨rfl, rfl⟩
        obtain ⟨_, hx, hd⟩ := daemon_picked ht
        cases hx
        have huntested := (ha row .build hd hfree').2.2.1
        rw [huntested] at hgood
        exact Status.not_good_untested hgood
    | _ => exact hfree

/-- Ports are built in layers: what has a package or is being built stands on settled
ports, and so does what is being tested. -/
structure Layered (c : Cluster) : Prop where
  builds : ∀ row ∈ c.db.tree.ports, (c.db.status row.id).Good ∨ c.db.lock row.id .build ≠ none →
    ∀ d ∈ c.db.tree.depends, d.port = row.id → nonTest d.type → Settled d.dependency c.db
  tests : ∀ x k q l, task c x = some (k, q) → k.lock = some l → l.phase = .test →
    ∀ d ∈ c.db.tree.depends, d.port = l.port.id → Settled d.dependency c.db

namespace Layered

theorem settled_of_ready {accept : String → Bool} {p : PortId} (hp : Published c)
    (hready : DependsReady c.db accept p) {d : Depend} (hd : d ∈ c.db.tree.depends)
    (hport : d.port = p) (htype : accept d.type) : Settled d.dependency c.db := by
  obtain ⟨hgood, hfree⟩ := hready d hd hport htype
  refine ⟨hgood, hfree, fun row hrow hid => ?_⟩
  rw [← hid] at hgood hfree
  exact hp.stored row hrow hfree hgood

theorem step (h : Layered c) (hp : Published c) (hm : Move c e c') (ha : Atomic c e) : Layered c' where
  builds := by
    intro row hrow hstate d hd hport htype
    rw [tree_same hp hm] at hrow hd
    refine Settled.step ?_ hp hm ha
    by_cases hbefore : (c.db.status row.id).Good ∨ c.db.lock row.id .build ≠ none
    · exact h.builds row hrow hbefore d hd hport htype
    obtain ⟨hbad, hfree⟩ := not_or.1 hbefore
    have hfree : c.db.lock row.id .build = none := not_not.1 hfree
    obtain ⟨y, hmoved⟩ := moved hm
    generalize c'.db = db at hmoved hstate
    -- a port that was neither is now locked, so it was ready
    cases hmoved with
    | still | tick => exact absurd hstate hbefore
    | call ht hans =>
      rcases hstate with hgood | hlocked
      · have hchanged : db.status row.id ≠ c.db.status row.id := fun he => hbad (he ▸ hgood)
        obtain ⟨l, _, hlport, hph, hlocked⟩ := hp.status_writer ht hans hchanged
        rw [Db.Locked, hlport, hph, hfree] at hlocked
        cases hlocked
      · obtain ⟨r, hr⟩ := Option.ne_none_iff_exists'.1 hlocked
        exact absurd (answer_lock_sub hans hr) (by simp [hfree])
    | @insert machine row' ph ht hfree' =>
      rcases hstate with hgood | hlocked
      · exact absurd hgood hbad
      change put c.db.lock row'.id ph _ row.id .build ≠ none at hlocked
      rw [put_apply] at hlocked
      split at hlocked
      · rename_i hslot
        obtain ⟨hid, rfl⟩ := hslot
        obtain ⟨_, hx, hdaemon⟩ := daemon_picked ht
        cases hx
        have hready := ha row' .build hdaemon hfree'
        exact settled_of_ready hp hready.2.2.2.2 hd (hport.trans hid) htype
      · exact absurd hfree hlocked
  tests := by
    intro x k q l ht hl hph d hd hport
    rw [tree_same hp hm] at hd
    refine Settled.step ?_ hp hm ha
    rcases lock_before hp.orderly.regular.links hm ht hl with ⟨y, k₀, q₀, hold, hl₀⟩ |
      ⟨machine, row, ph, rfl, hdaemon, hfree, rfl⟩
    · exact h.tests y k₀ q₀ l hold hl₀ hph d hd hport
    cases hph
    have hready := ha row .test hdaemon hfree
    by_cases htype : nonTest d.type
    · have hrow := (hp.rooted _ _ _ (task_daemon hdaemon)).2 row .test rfl
      exact h.builds row hrow (.inl hready.2.1) d hd hport htype
    · exact settled_of_ready hp hready.2.2.2 hd hport (by simpa [nonTest] using htype)

theorem closure (h : Layered c) (hp : Published c) {x : Owner} {l : Lock} {q : Magus Unit}
    (ht : task c x = some (.worker l, q)) (hph : l.phase = .build ∨ l.phase = .test) {d : PortRow}
    (hd : d ∈ phaseDependsClosure c.db.tree l.port (l.phase = .test)) :
    d ∈ c.db.tree.ports ∧ Settled d.id c.db := by
  have related : ∀ {accept : String → Bool} {p y : PortRow},
      y ∈ relations c.db.tree accept p → (∀ dep ∈ c.db.tree.depends, dep.port = p.id →
        accept dep.type → Settled dep.dependency c.db) → y ∈ c.db.tree.ports ∧ Settled y.id c.db := by
    intro accept p y hy hs
    obtain ⟨dep, hdep, hport, hacc, hret⟩ := mem_relations.1 hy
    obtain ⟨hmem, hid⟩ := Tree.retrieve_mem hret
    exact ⟨hmem, hid ▸ hs dep hdep hport hacc⟩
  have hroot := (hp.rooted x _ q ht).1 l rfl
  refine Reaches.closed (S := fun y => y ∈ c.db.tree.ports ∧ Settled y.id c.db)
    (DependsClosures.mem_phaseDependsClosure hd).1 (fun y hy => ?_) fun y hy z hz => ?_
  · refine related hy fun dep hdep hport hacc => ?_
    rcases hph with hb | htest
    · have hlocked := hp.orderly.locked ht (show Owns True _ l from rfl) (by simp)
      refine h.builds l.port hroot (.inr fun hnone => ?_) dep hdep hport (by simpa [hb] using hacc)
      rw [Db.Locked, hb, hnone] at hlocked
      cases hlocked
    · exact h.tests x _ q l ht rfl htest dep hdep hport
  · exact related hz fun dep hdep hport hacc => h.builds y hy.1 (.inl hy.2.1) dep hdep hport hacc

end Layered

/-- A worker asks only for its own status and those of its closure, and copies in only
those packages. -/
def Injects (T : Tree) (l : Lock) : Op → Prop
  | .sql (.selectStatus p) =>
      p = l.port.id ∨ ∃ d ∈ phaseDependsClosure T l.port (l.phase = .test), d.id = p
  | .ext (.command (.copyIn row)) => row = l.port ∨ row ∈ phaseDependsClosure T l.port (l.phase = .test)
  | _ => True

def Asked (T : Tree) : (o : Op) → Except Exn o.Res → Prop
  | .sql (.selectPhaseDepends row includeTest), .ok rows => rows = phaseDependsClosure T row includeTest
  | .waitpid, .ok w => w ≠ .interrupted
  | _, _ => True

section Programs
variable {T : Tree} {l : Lock}

theorem recordException_injects (error : Exn) : Uses (S := magus) (Injects T l) (Asked T)
    (recordException l error) :=
  Uses.ite (fun _ => setResult_uses trivial trivial trivial trivial fun _ _ _ => trivial) fun _ =>
    Uses.bind (setPhaseStatus_uses trivial trivial trivial) fun _ => Uses.issue trivial

theorem runMakePhase_injects : Uses (S := magus) (Injects T l) (Asked T) (runMakePhase l) := by
  refine Uses.bind (Uses.issue trivial) fun _ => ⟨trivial, fun r hr => ?_⟩
  cases r with
  | error e => exact Uses.raise e
  | ok w =>
    cases w with
    | interrupted => exact absurd rfl hr
    | done st =>
      exact Uses.ite (fun _ => Uses.bind (Uses.issue (.inl rfl)) fun _ => Uses.pure _) fun _ =>
        Uses.raise _

theorem injectDepends_injects : Uses (S := magus) (Injects T l) (Asked T) (injectDepends l) := by
  refine ⟨trivial, fun r hr => ?_⟩
  cases r with
  | error e => exact Uses.raise e
  | ok rows =>
    cases hr
    refine Uses.forEach fun d hd => Uses.bind (Uses.issue (.inr ⟨d, hd, rfl⟩)) fun _ =>
      Uses.ite (fun _ => ?_) fun _ => Uses.raise _
    exact scp_uses (.inr hd)

theorem distfiles_injects : Uses (S := magus) (Injects T l) (Asked T) (injectDistfiles l) ∧
    Uses (S := magus) (Injects T l) (Asked T) (uploadDistfiles l) :=
  ⟨Uses.bind (Uses.issue trivial) fun _ => Uses.forEach fun _ _ => Uses.issue trivial,
    Uses.bind (Uses.issue trivial) fun _ => Uses.forEach fun _ _ => Uses.issue trivial⟩

theorem run_injects (hph : l.phase = .build ∨ l.phase = .test) :
    Uses (S := magus) (Injects T l) (Asked T) (run l) := by
  have hphase : Uses (S := magus) (Injects T l) (Asked T) (runPhase l) := by
    unfold runPhase
    split
    · simp_all
    · refine Uses.bind (Uses.issue trivial) fun _ => Uses.bind injectDepends_injects fun _ => ?_
      refine Uses.bind distfiles_injects.1 fun _ => Uses.bind runMakePhase_injects fun _ => ?_
      refine Uses.bind (Uses.issue (.inl rfl)) fun _ => Uses.when fun _ => ?_
      exact Uses.bind (scp_uses trivial) fun _ => distfiles_injects.2
    · simp_all
    · refine Uses.bind (Uses.issue trivial) fun _ => Uses.bind injectDepends_injects fun _ => ?_
      refine Uses.bind (scp_uses (.inl rfl)) fun _ => Uses.bind distfiles_injects.1 fun _ => ?_
      exact runMakePhase_injects
  refine Uses.tryCatch (Uses.bind (Uses.issue trivial) fun _ => Uses.when fun _ => ?_) fun e => ?_
  · refine Uses.bind (setPhaseStatus_uses trivial trivial trivial) fun _ => ?_
    refine Uses.bind (Uses.issue trivial) fun _ => Uses.bind hphase fun _ => ?_
    exact Uses.bind (phaseResult_uses trivial trivial) fun _ => Uses.issue trivial
  · refine Uses.ite (fun _ => Uses.exit _) fun _ => Uses.ite (fun _ => Uses.pure _) fun _ => ?_
    exact Uses.tryCatch (recordException_injects e) fun _ =>
      Uses.ite (fun _ => Uses.exit _) fun _ => Uses.pure _

end Programs

/-- Workers of builds and tests keep to their closures. -/
def Tidy (T : Tree) (c : Cluster) : Prop := ∀ x l q, task c x = some (.worker l, q) →
  l.phase = .build ∨ l.phase = .test → Uses (S := magus) (Injects T l) (Asked T) q

theorem asked {T : Tree} {x : Owner} {l : Lock} {o : Op} {r : Except Exn o.Res} {db : Db}
    (how : Answered c e db x (.worker l) o r) (hT : c.db.tree = T) (hu : Undisturbed c e) : Asked T o r := by
  cases how with
  | @chosen pid ch _ _ _ _ ha =>
    cases o with
    | sql s =>
      rcases answer_sql ha with ⟨y, rfl, hexec⟩ | ⟨_, _, rfl, _⟩
      · cases s with
        | selectPhaseDepends row includeTest =>
          cases hexec
          exact hT ▸ rfl
        | _ => trivial
      · cases s <;> trivial
    | waitpid => cases ch <;> cases ha
    | _ => trivial
  | waited => exact Waited.noConfusion
  | handled | raised => exact hu.elim
  | _ => trivial

theorem Tidy.step {T : Tree} (h : Tidy T c) (links : Links c) (hm : Move c e c') (hT : c.db.tree = T)
    (hu : Undisturbed c e) : Tidy T c' := by
  intro x l q ht hph
  rcases accounted links hm x _ ht with ⟨hold, _⟩ | hb
  · exact h x l q hold hph
  generalize c'.db = db at hb
  generalize hk : (Kind.worker l, q).1 = k at hb
  cases hb with
  | answered hold how =>
    subst hk
    exact (h _ l _ hold hph).2 _ (asked how hT hu)
  | started hold =>
    cases hk
    exact run_injects hph
  | _ => cases hk

/-- What holds from freshly indexed ports on: every package of a released port is
stored, and the built ports stand in layers over the tree of `db`. -/
structure Grounded (db : Db) (c : Cluster) : Prop where
  published : Published c
  layered : Layered c
  tree : c.db.tree = db.tree

namespace Grounded
variable {db : Db}

theorem start (free : ∀ p ph, db.lock p ph = none)
    (fresh : ∀ row ∈ db.tree.ports, db.status row.id = .untested ∨ db.status row.id = .skip ∨
      db.status row.id = .fail) : Grounded db (Cluster.start db) := by
  have unbuilt : ∀ row ∈ db.tree.ports, ¬ (db.status row.id).Good := by
    intro row hrow hgood
    rcases fresh row hrow with hst | hst | hst <;> rw [hst] at hgood <;> exact absurd hgood (by decide)
  exact ⟨.start free fun row hrow hgood => absurd hgood (unbuilt row hrow),
    ⟨fun row hrow hstate => absurd hstate (by simp [Cluster.start, free, unbuilt row hrow]),
      fun x k q l ht => by cases x <;> cases ht⟩, rfl⟩

theorem step (h : Grounded db c) (hm : Move c e c') (hu : Undisturbed c e) (ha : Atomic c e) :
    Grounded db c' :=
  ⟨h.published.step hm hu, h.layered.step h.published hm ha, (tree_same h.published hm).trans h.tree⟩

theorem of_run (free : ∀ p ph, db.lock p ph = none)
    (fresh : ∀ row ∈ db.tree.ports, db.status row.id = .untested ∨ db.status row.id = .skip ∨
      db.status row.id = .fail) {h : List (Cluster × Event)}
    (run : Run Cluster.Step (Cluster.start db) h c)
    (all : AllSteps (fun c e => Undisturbed c e ∧ Atomic c e) h) : Grounded db c :=
  run.invariant (Grounded db) all (.start free fresh) fun _ _ _ hI hstep hok =>
    hI.step (Cluster.step_move hstep) hok.1 hok.2

end Grounded

/-- From freshly indexed ports, undisturbed and with selection and insertion as one
step: as long as a build or test worker lives, everything its closure names has a
package and its file, so that neither asking for a dependency's status nor copying its
package in can fail it. -/
theorem dependencies_injectable {db : Db} (free : ∀ p ph, db.lock p ph = none)
    (fresh : ∀ row ∈ db.tree.ports, db.status row.id = .untested ∨ db.status row.id = .skip ∨
      db.status row.id = .fail) {h : List (Cluster × Event)} {c : Cluster}
    (run : Run Cluster.Step (Cluster.start db) h c)
    (all : AllSteps (fun c e => Undisturbed c e ∧ Atomic c e) h) {x : Owner} {l : Lock}
    {q : Magus Unit} (ht : task c x = some (.worker l, q)) (hph : l.phase = .build ∨ l.phase = .test) :
    (∀ d ∈ phaseDependsClosure c.db.tree l.port (l.phase = .test),
      (c.db.status d.id).Good ∧ c.db.PkgfileExists d) ∧
    (∀ p, q.pending = some (.sql (.selectStatus p)) → p ≠ l.port.id → (c.db.status p).Good) ∧
    ∀ row, q.pending = some (.ext (.command (.copyIn row))) → row ≠ l.port →
      c.db.PkgfileExists row := by
  obtain ⟨hground, htidy⟩ := run.invariant (fun c => Grounded db c ∧ Tidy db.tree c) all
    ⟨.start free fresh, fun x l q ht => by cases x <;> cases ht⟩ fun _ _ _ hI hstep hok => by
      have hm := Cluster.step_move hstep
      exact ⟨hI.1.step hm hok.1 hok.2,
        hI.2.step hI.1.published.orderly.regular.links hm hI.1.tree hok.1⟩
  have closed : ∀ d ∈ phaseDependsClosure c.db.tree l.port (l.phase = .test),
      (c.db.status d.id).Good ∧ c.db.PkgfileExists d := by
    intro d hd
    obtain ⟨hmem, hgood, _, hexists⟩ := hground.layered.closure hground.published ht hph hd
    exact ⟨hgood, hexists d hmem rfl⟩
  have huses := htidy x l q ht hph
  rw [← hground.tree] at huses
  refine ⟨closed, fun p hq hne => ?_, fun row hq hne => ?_⟩
  · cases q with
    | call o κ =>
      cases hq
      obtain ⟨d, hd, rfl⟩ := huses.1.resolve_left hne
      exact (closed d hd).1
    | _ => cases hq
  · cases q with
    | call o κ =>
      cases hq
      exact (closed row (huses.1.resolve_left hne)).2
    | _ => cases hq

def sampleDependent : PortRow :=
  { id := 1, run := 1, name := "misc/b", version := "1", pkgname := "b" }

theorem chain_key : ([samplePort, sampleDependent].map (·.id)).Nodup := by
  simp [samplePort, sampleDependent]

def chainDb : Db :=
  { Db.empty with
    tree := ⟨[samplePort, sampleDependent], [⟨1, 0, "lib"⟩], chain_key, by simp,
      by simp [samplePort, sampleDependent]⟩
    phaseRow := fun _ ph =>
      some { PhaseRow.fresh 0 with status := if ph = .fetch then .pass else .untested } }

/-- Steps that nothing disturbs and that insert only what is ready, at a glance. -/
def Composed (c : Cluster) : Event → Bool
  | .bury pid => match task c (.inl pid) with
    | some (.corpse _ 6, _) => false
    | _ => true
  | .insert machine => match c.daemon machine with
    | .picked row ph => decide (Ready c.db ph row)
    | _ => true
  | e => Smooth e

theorem Composed.undisturbed (h : Composed c e = true) : Undisturbed c e ∧ Atomic c e := by
  cases e with
  | bury pid =>
    refine ⟨fun l ht => ?_, trivial⟩
    simp [Composed, ht] at h
  | insert machine =>
    refine ⟨trivial, fun row ph hd _ => ?_⟩
    simpa [Composed, hd] using h
  | _ => exact ⟨Smooth.undisturbed (by simpa [Composed] using h) c, trivial⟩

/-- The first port is built and released; then the worker of the second asks for it. -/
theorem chain_injectable : ∃ h c l κ, Run Cluster.Step (Cluster.start chainDb) h c ∧
    task c (.inl 50) = some (.worker l, .call (.sql (.selectStatus 0)) κ) ∧ l.phase = .build ∧
      l.port.id = 1 ∧ (c.db.status 0).Good := by
  obtain ⟨h, c, run, hf⟩ := reached_of_history Cluster.next (s := Cluster.start chainDb)
    (w := taken 1 samplePort .build 30 ++ calls 30 7 ++ passed 30 40 ++ uploaded 30 40 ++
      released 30 ++ taken 2 sampleDependent .build 50 ++ calls 50 6)
    (f := fun x => (x.1.all fun y => Composed y.1 y.2) &&
      (task x.2 (.inl 50)).any fun t => t.1.isWorker fun l =>
        decide (t.2.pending = some (.sql (.selectStatus 0))) &&
          decide (l.phase = .build) && decide (l.port.id = 1)) (by decide +kernel)
  simp only [Bool.and_eq_true, List.all_eq_true, Option.any_eq_true] at hf
  obtain ⟨hall, ⟨k, q⟩, ht, hk⟩ := hf
  cases k with
  | worker l =>
    simp only [Kind.isWorker, Bool.and_eq_true, decide_eq_true_eq] at hk
    obtain ⟨⟨hpend, hbuild⟩, hid⟩ := hk
    have hgood := (dependencies_injectable (fun _ _ => rfl) (fun _ _ => .inl rfl) run
      (fun x hx => Composed.undisturbed (hall x hx)) ht (.inl hbuild)).2.1 0 hpend (by simp [hid])
    cases q with
    | call o κ =>
      cases hpend
      exact ⟨h, c, l, κ, run, ht, hbuild, hid, hgood⟩
    | _ => cases hpend
  | _ => cases hk

end Dependencies
end Mports.MagusPackages
