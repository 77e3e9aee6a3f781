import Mports.MagusTables
import Mports.ReleaseTables

set_option autoImplicit false

namespace Mports.MagusReadyCount
open MagusTables NullableSql ReleaseTables

structure PhaseResult where
  port : PortId
  phase : Phase
  status : Status
  deriving DecidableEq, Repr

structure LockEntry where
  id : ℕ
  port : PortId
  phase : Phase
  deriving DecidableEq, Repr

/-- The tables with their keys; nothing in the schema makes a dependency a port. -/
structure Tables where
  ports : List Port
  phaseResults : List PhaseResult
  locks : List LockEntry
  depends : List Depend
  ports_key : (ports.map (·.id)).Nodup
  phaseResults_key : (phaseResults.map fun r => (r.port, r.phase)).Nodup
  locks_key : (locks.map fun l => (l.port, l.phase)).Nodup
  depends_key : depends.Nodup

section Queries
variable (t : Tables)

/-- `fetch_phase.port = ports.id AND fetch_phase.phase = 'fetch' AND fetch_phase.status <> 'untested'`. -/
def fetchPhase (p : Port) (f : PhaseResult) : Truth :=
  ((eq (some f.port) (some p.id)).and (eq (some f.phase) (some .fetch))).and
    (ne (some f.status) (some .untested))

/-- `locks.port = ports.id and locks.phase = 'build'`. -/
def buildLock (x : Port × PhaseResult) (l : LockEntry) : Truth :=
  (eq (some l.port) (some x.1.id)).and (eq (some l.phase) (some .build))

def joined : List ((Port × PhaseResult) × Option LockEntry) :=
  leftJoin buildLock (innerJoin fetchPhase t.ports t.phaseResults) t.locks

def blocking (p : Port) : List Depend :=
  keep (fun d => ((eq (some p.id) (some d.port)).and (ne (some d.type) (some "test"))).and
    ((anyRow (keep (fun q => (eq (some q.id) (some d.dependency)).and (built (some q.status))) t.ports)).not.or
      (anyRow (keep (fun l => (eq (some l.port) (some d.dependency)).and (eq (some l.phase) (some .build)))
        t.locks)))) t.depends

def priority (p : Port) : ℕ := (keep (fun d => eq (some d.dependency) (some p.id)) t.depends).length

/-- `ORDER BY priority desc, ports.name asc`. -/
def Before (p q : Port) : Prop :=
  priority t q < priority t p ∨ priority t q = priority t p ∧ p.name ≤ q.name

instance : DecidableRel (Before t) := fun _ _ => inferInstanceAs (Decidable (_ ∨ _))

/-- The rows of the view `ready_ports`, of every run. -/
def readyView : List Port :=
  ((keep (fun ((p, _), l) => ((eq (some p.status) (some .untested)).and (isNull (l.map (·.id)))).and
    (anyRow (blocking t p)).not) (joined t)).map fun x => x.1.1).insertionSort (Before t)

def readyPorts (run : RunId) : List Port := keep (fun p => eq (some p.run) (some run)) (readyView t)

/-- The subquery of the page: `dep.status NOT IN ('pass', 'warn')`, for dependencies of
any type, and of ports only. -/
def unmet (p : Port) : List (Depend × Port) :=
  keep (fun (d, dep) => (eq (some d.port) (some p.id)).and (notIn (some dep.status) [.pass, .warn]))
    (innerJoin (fun d dep => eq (some dep.id) (some d.dependency)) t.depends t.ports)

def countedRows (run : RunId) : List Port :=
  (keep (fun (((p, _), l), d) =>
    (((eq (some p.run) (some run)).and (eq (some p.status) (some .untested))).and (isNull (l.map (·.id)))).and
      ((isNull (d.map (·.port))).or (anyRow (unmet t p)).not))
    (leftJoin (fun x d => eq (some d.port) (some x.1.1.id)) (joined t) t.depends)).map fun x => x.1.1.1

/-- `COUNT(DISTINCT p.id)`. -/
def readyCount (run : RunId) : ℕ := ((countedRows t run).map (·.id)).dedup.length

end Queries

/-- An untested port of the run that nobody builds and whose fetch phase was attempted. -/
structure Candidate (t : Tables) (run : RunId) (p : Port) : Prop where
  port : p ∈ t.ports
  run : p.run = run
  status : p.status = .untested
  fetch : ∃ f ∈ t.phaseResults, f.port = p.id ∧ f.phase = .fetch ∧ f.status ≠ .untested
  lock : ∀ l ∈ t.locks, l.port = p.id → l.phase ≠ .build

def Built (t : Tables) (d : Depend) : Prop := ∃ q ∈ t.ports, q.id = d.dependency ∧ q.status.Good

def Building (t : Tables) (d : Depend) : Prop := ∃ l ∈ t.locks, l.port = d.dependency ∧ l.phase = .build

def Lacking (t : Tables) (d : Depend) : Prop := ∃ q ∈ t.ports, q.id = d.dependency ∧ ¬ q.status.Good

def Offered (t : Tables) (p : Port) : Prop :=
  ∀ d ∈ t.depends, d.port = p.id → d.type ≠ "test" → Built t d ∧ ¬ Building t d

def Counted (t : Tables) (p : Port) : Prop := ∀ d ∈ t.depends, d.port = p.id → ¬ Lacking t d

instance (t : Tables) (run : RunId) (p : Port) : Decidable (Candidate t run p) :=
  decidable_of_iff (p ∈ t.ports ∧ p.run = run ∧ p.status = .untested ∧
    (∃ f ∈ t.phaseResults, f.port = p.id ∧ f.phase = .fetch ∧ f.status ≠ .untested) ∧
      ∀ l ∈ t.locks, l.port = p.id → l.phase ≠ .build)
    ⟨fun ⟨hp, hr, hs, hf, hl⟩ => ⟨hp, hr, hs, hf, hl⟩, fun ⟨hp, hr, hs, hf, hl⟩ => ⟨hp, hr, hs, hf, hl⟩⟩

instance (t : Tables) (d : Depend) : Decidable (Built t d) := inferInstanceAs (Decidable (∃ q ∈ _, _))

instance (t : Tables) (d : Depend) : Decidable (Building t d) := inferInstanceAs (Decidable (∃ l ∈ _, _))

instance (t : Tables) (d : Depend) : Decidable (Lacking t d) := inferInstanceAs (Decidable (∃ q ∈ _, _))

instance (t : Tables) (p : Port) : Decidable (Offered t p) := inferInstanceAs (Decidable (∀ d ∈ _, _))

instance (t : Tables) (p : Port) : Decidable (Counted t p) := inferInstanceAs (Decidable (∀ d ∈ _, _))

section Members
variable {t : Tables} {run : RunId} {p : Port}

theorem candidate_iff : Candidate t run p ↔ p.run = run ∧ p.status = .untested ∧
    ∃ f, ((p, f), (none : Option LockEntry)) ∈ joined t := by
  simp only [joined, mem_leftJoin_none, mem_innerJoin, fetchPhase, buildLock, Truth.holds_and, holds_eq,
    holds_ne, Option.some.injEq, exists_eq_left', not_and]
  constructor
  · intro h
    obtain ⟨f, hf, hport, hphase, hne⟩ := h.fetch
    refine ⟨h.run, h.status, f, ⟨h.port, hf, ⟨?_, ?_⟩, ?_⟩, fun l hl hport => ?_⟩
    · exact hport.symm
    · exact hphase.symm
    · simpa using hne
    · exact fun hbuild => h.lock l hl hport.symm hbuild.symm
  · rintro ⟨hrun, hstatus, f, ⟨hp, hf, ⟨hport, hphase⟩, hne⟩, hlock⟩
    exact ⟨hp, hrun, hstatus, ⟨f, hf, hport.symm, hphase.symm, by simpa using hne⟩,
      fun l hl hport hbuild => hlock l hl hport.symm hbuild.symm⟩

theorem blocking_eq_nil : blocking t p = [] ↔ Offered t p := by
  simp only [blocking, keep_eq_nil, Offered, Built, Building, Truth.holds_and, Truth.holds_or,
    Truth.holds_not, anyRow_eq_false, holds_anyRow, ne_eq, holds_eq, holds_ne, holds_built,
    Option.some.injEq, exists_eq_left']
  grind

theorem unmet_eq_nil : unmet t p = [] ↔ Counted t p := by
  simp only [unmet, keep_eq_nil, Counted, Lacking, Prod.forall, mem_innerJoin, Truth.holds_and, holds_eq,
    holds_notIn, Option.some.injEq, exists_eq_left', Status.Good, List.mem_cons, List.not_mem_nil, or_false]
  grind

theorem mem_readyPorts : p ∈ readyPorts t run ↔ Candidate t run p ∧ Offered t p := by
  simp only [readyPorts, readyView, mem_keep, List.mem_insertionSort, List.mem_map, candidate_iff,
    Truth.holds_and, holds_eq, holds_isNull, Truth.holds_not, anyRow_eq_false, blocking_eq_nil,
    Option.some.injEq, exists_eq_left', Option.map_eq_none_iff]
  constructor
  · rintro ⟨⟨⟨⟨q, f⟩, l⟩, ⟨hrow, ⟨hstatus, hlock⟩, hoffered⟩, hq⟩, hrun⟩
    subst hq hlock
    exact ⟨⟨hrun.symm, hstatus.symm, f, hrow⟩, hoffered⟩
  · rintro ⟨⟨hrun, hstatus, f, hrow⟩, hoffered⟩
    exact ⟨⟨((p, f), none), ⟨hrow, ⟨hstatus.symm, rfl⟩, hoffered⟩, rfl⟩, hrun.symm⟩

theorem mem_countedRows : p ∈ countedRows t run ↔ Candidate t run p ∧ Counted t p := by
  have hrows : p ∈ countedRows t run ↔ ∃ x : (Port × PhaseResult) × Option LockEntry,
      (∃ d, (x, d) ∈ leftJoin (fun x d => eq (some d.port) (some x.1.1.id)) (joined t) t.depends ∧
        ((p.run = run ∧ p.status = .untested ∧ x.2 = none) ∧ (d = none ∨ Counted t p))) ∧ x.1.1 = p := by
    simp only [countedRows, List.mem_map, mem_keep, Truth.holds_and, Truth.holds_or, holds_eq, holds_isNull,
      Truth.holds_not, anyRow_eq_false, unmet_eq_nil, Option.some.injEq, exists_eq_left', Option.map_eq_none_iff]
    constructor
    · rintro ⟨⟨⟨⟨q, f⟩, l⟩, d⟩, ⟨hrow, ⟨⟨hrun, hstatus⟩, hlock⟩, hunmet⟩, hq⟩
      subst hq
      exact ⟨((q, f), l), ⟨d, hrow, ⟨hrun.symm, hstatus.symm, hlock⟩, hunmet⟩, rfl⟩
    · rintro ⟨⟨⟨q, f⟩, l⟩, ⟨d, hrow, ⟨hrun, hstatus, hlock⟩, hunmet⟩, hq⟩
      subst hq
      exact ⟨(((q, f), l), d), ⟨hrow, ⟨⟨hrun.symm, hstatus.symm⟩, hlock⟩, hunmet⟩, rfl⟩
  rw [hrows, candidate_iff]
  simp only [exists_mem_leftJoin]
  constructor
  · rintro ⟨⟨⟨q, f⟩, l⟩, ⟨hrow, h⟩, hq⟩
    subst hq
    rcases h with ⟨d, _, _, ⟨hrun, hstatus, hlock⟩, hunmet⟩ | ⟨halone, ⟨hrun, hstatus, hlock⟩, _⟩
    · subst hlock
      exact ⟨⟨hrun, hstatus, f, hrow⟩, by simpa using hunmet⟩
    · subst hlock
      exact ⟨⟨hrun, hstatus, f, hrow⟩, fun d hd hport => absurd (by simp [hport]) (halone d hd)⟩
  · rintro ⟨⟨hrun, hstatus, f, hrow⟩, hcounted⟩
    refine ⟨((p, f), none), ⟨hrow, ?_⟩, rfl⟩
    by_cases hdepends : ∃ d ∈ t.depends, d.port = p.id
    · obtain ⟨d, hd, hport⟩ := hdepends
      exact .inl ⟨d, hd, by simp [hport], ⟨hrun, hstatus, rfl⟩, .inr hcounted⟩
    · refine .inr ⟨fun d hd heq => hdepends ⟨d, hd, ?_⟩, ⟨hrun, hstatus, rfl⟩, .inl trivial⟩
      simpa [eq_comm] using heq

end Members

section Counts
variable (t : Tables) (run : RunId)

theorem joined_sublist : ((joined t).map fun x => x.1.1).Sublist t.ports := by
  have hlock : Keyed buildLock t.locks := by
    apply keyed_of_nodup t.locks_key
    intro a b _ b' _ hb hb'
    simp only [buildLock, Truth.holds_and, holds_eq, Option.some.injEq, exists_eq_left'] at hb hb'
    rw [← hb.1, ← hb.2, ← hb'.1, ← hb'.2]
  have hfetch : Keyed fetchPhase t.phaseResults := by
    apply keyed_of_nodup t.phaseResults_key
    intro a b _ b' _ hb hb'
    simp only [fetchPhase, Truth.holds_and, holds_eq, Option.some.injEq, exists_eq_left'] at hb hb'
    rw [← hb.1.1, ← hb.1.2, ← hb'.1.1, ← hb'.1.2]
  have hfst : (joined t).map Prod.fst = innerJoin fetchPhase t.ports t.phaseResults := leftJoin_fst hlock
  have hports : (joined t).map (fun x => x.1.1) = (innerJoin fetchPhase t.ports t.phaseResults).map Prod.fst := by
    rw [← hfst, List.map_map, Function.comp_def]
  rw [hports]
  exact innerJoin_fst hfetch

theorem readyPorts_ids : ((readyPorts t run).map (·.id)).Nodup := by
  have hkept : ((keep (fun ((p, _), l) => ((eq (some p.status) (some .untested)).and (isNull (l.map (·.id)))).and
      (anyRow (blocking t p)).not) (joined t)).map fun x => x.1.1).Sublist t.ports :=
    (List.filter_sublist.map _).trans (joined_sublist t)
  have hview : ((readyView t).map (·.id)).Nodup :=
    ((List.perm_insertionSort (Before t) _).map _).nodup_iff.2 (t.ports_key.sublist (hkept.map _))
  exact hview.sublist (List.filter_sublist.map _)

/-- Ready for the view only: a dependency for the tests, which the view leaves out, is a
port without a package. -/
def OnlyOffered (p : Port) : Prop :=
  Candidate t run p ∧ Offered t p ∧ ∃ d ∈ t.depends, d.port = p.id ∧ d.type = "test" ∧ Lacking t d

/-- Ready for the page only: a dependency the view asks for is being built, or is no port. -/
def OnlyCounted (p : Port) : Prop :=
  Candidate t run p ∧ Counted t p ∧
    ∃ d ∈ t.depends, d.port = p.id ∧ d.type ≠ "test" ∧ (Building t d ∨ ∀ q ∈ t.ports, q.id ≠ d.dependency)

instance (p : Port) : Decidable (OnlyOffered t run p) := inferInstanceAs (Decidable (_ ∧ _ ∧ ∃ d ∈ _, _))

instance (p : Port) : Decidable (OnlyCounted t run p) := inferInstanceAs (Decidable (_ ∧ _ ∧ ∃ d ∈ _, _))

theorem length_readyPorts :
    (readyPorts t run).length = t.ports.countP fun p => Candidate t run p ∧ Offered t p := by
  rw [List.countP_eq_length_filter]
  apply List.Perm.length_eq
  rw [List.perm_ext_iff_of_nodup (readyPorts_ids t run).of_map (t.ports_key.of_map.filter _)]
  intro p
  simp only [mem_readyPorts, List.mem_filter, decide_eq_true_eq]
  exact ⟨fun h => ⟨h.1.port, h⟩, fun h => h.2⟩

theorem readyCount_eq :
    readyCount t run = t.ports.countP fun p => Candidate t run p ∧ Counted t p := by
  rw [List.countP_eq_length_filter, readyCount, ← List.length_map fun p : Port => p.id]
  apply List.Perm.length_eq
  rw [List.perm_ext_iff_of_nodup (List.nodup_dedup _) (t.ports_key.sublist (List.filter_sublist.map _))]
  intro id
  simp only [List.mem_dedup, List.mem_map, mem_countedRows, List.mem_filter, decide_eq_true_eq]
  constructor
  · rintro ⟨p, h, hid⟩
    exact ⟨p, ⟨h.1.port, h⟩, hid⟩
  · rintro ⟨p, h, hid⟩
    exact ⟨p, h.2, hid⟩

variable {t run} {p : Port}

theorem Lacking.not_built {d : Depend} (hlacking : Lacking t d) : ¬ Built t d := by
  rintro ⟨q, hq, hid, hgood⟩
  obtain ⟨q', hq', hid', hbad⟩ := hlacking
  have heq : q = q' := List.inj_on_of_nodup_map t.ports_key hq hq' (hid.trans hid'.symm)
  exact hbad (heq ▸ hgood)

theorem onlyOffered_iff :
    OnlyOffered t run p ↔ (Candidate t run p ∧ Offered t p) ∧ ¬ (Candidate t run p ∧ Counted t p) := by
  constructor
  · rintro ⟨hc, ho, d, hd, hport, _, hlacking⟩
    exact ⟨⟨hc, ho⟩, fun h => h.2 d hd hport hlacking⟩
  · rintro ⟨⟨hc, ho⟩, hnot⟩
    have hlacking : ∃ d ∈ t.depends, d.port = p.id ∧ Lacking t d := by
      by_contra hnone
      exact hnot ⟨hc, fun d hd hport hl => hnone ⟨d, hd, hport, hl⟩⟩
    obtain ⟨d, hd, hport, hl⟩ := hlacking
    refine ⟨hc, ho, d, hd, hport, ?_, hl⟩
    by_contra htype
    exact hl.not_built (ho d hd hport htype).1

theorem onlyCounted_iff :
    OnlyCounted t run p ↔ (Candidate t run p ∧ Counted t p) ∧ ¬ (Candidate t run p ∧ Offered t p) := by
  constructor
  · rintro ⟨hc, hn, d, hd, hport, htype, hwhy⟩
    refine ⟨⟨hc, hn⟩, fun h => ?_⟩
    obtain ⟨⟨q, hq, hid, _⟩, hidle⟩ := h.2 d hd hport htype
    cases hwhy with
    | inl hbuilding => exact hidle hbuilding
    | inr hgone => exact hgone q hq hid
  · rintro ⟨⟨hc, hn⟩, hnot⟩
    have hblocked : ∃ d ∈ t.depends, d.port = p.id ∧ d.type ≠ "test" ∧ ¬ (Built t d ∧ ¬ Building t d) := by
      by_contra hnone
      exact hnot ⟨hc, fun d hd hport htype => by_contra fun h => hnone ⟨d, hd, hport, htype, h⟩⟩
    obtain ⟨d, hd, hport, htype, hblocks⟩ := hblocked
    refine ⟨hc, hn, d, hd, hport, htype, ?_⟩
    by_contra hwhy
    simp only [not_or, not_forall, ne_eq, not_not] at hwhy
    obtain ⟨hidle, q, hq, hid⟩ := hwhy
    have hgood : q.status.Good := by_contra fun hbad => hn d hd hport ⟨q, hq, hid, hbad⟩
    exact hblocks ⟨⟨q, hq, hid, hgood⟩, hidle⟩

theorem countP_exchange {α : Type} (A B : α → Prop) [DecidablePred A] [DecidablePred B] (l : List α) :
    l.countP (fun x => A x) + l.countP (fun x => B x ∧ ¬ A x) =
      l.countP (fun x => B x) + l.countP (fun x => A x ∧ ¬ B x) := by
  induction l with
  | nil => rfl
  | cons x l ih =>
    simp only [List.countP_cons]
    by_cases hA : A x <;> by_cases hB : B x <;>
      simp only [hA, hB, and_self, not_true, not_false_eq_true, and_true, and_false, decide_true, decide_false] <;>
      omega

end Counts

/-- The counter is right if and only if it leaves out as many ports as it adds. -/
theorem readyCount_eq_iff (t : Tables) (run : RunId) :
    readyCount t run = (readyPorts t run).length ↔
      t.ports.countP (fun p => OnlyOffered t run p) = t.ports.countP (fun p => OnlyCounted t run p) := by
  have hexchange := countP_exchange (fun p => Candidate t run p ∧ Offered t p)
    (fun p => Candidate t run p ∧ Counted t p) t.ports
  simp only [length_readyPorts, readyCount_eq, onlyOffered_iff, onlyCounted_iff]
  omega

def testTables : Tables where
  ports := [⟨1, 1, "devel/gmake", "gmake", "4.4", none, none, false, .untested⟩,
    ⟨2, 1, "lang/python", "python", "3.11", none, none, false, .untested⟩]
  phaseResults := [⟨1, .fetch, .pass⟩, ⟨2, .fetch, .untested⟩]
  locks := []
  depends := [⟨1, 2, "test"⟩]
  ports_key := by decide
  phaseResults_key := by decide
  locks_key := by decide
  depends_key := by decide

theorem testTables_readyCount : ¬ ∀ (t : Tables) (run : RunId), readyCount t run = (readyPorts t run).length := by
  intro h
  have htest : readyCount testTables 1 = (readyPorts testTables 1).length := h testTables 1
  revert htest
  decide +kernel

end Mports.MagusReadyCount
