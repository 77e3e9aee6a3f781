import Mports.MagusStranded

set_option autoImplicit false

namespace Mports.MagusPrefetch
open MagusTables MagusStatements MagusPort MagusReady MagusWorker MagusFootprint MagusEffects
open MagusCluster MagusHolders MagusChildren MagusTasks MagusConduct MagusOwnership MagusRunning
open MagusStranded StatementPrograms LabelledRuns

/-- The fetch phase of the port has come to a result. -/
def Fetched (p : PortId) (db : Db) : Prop := ∃ st, db.phaseStatus p .fetch = some st ∧ Final st

/-- Locks are taken and released, workers start and end; nothing is reset, killed or
indexed. The burial of a worker that has lost the database resets. -/
def Peaceful (c : Cluster) : Event → Prop
  | .bury pid => ∀ l, task c (.inl pid) ≠ some (.corpse l 6, .ret ())
  | .interrupt _ _ | .signal _ _ _ | .killChildren _ _ | .resetPort _ _ | .index _ _ _ _
  | .indexDepends _ _ _ _ => False
  | _ => True

/-- A SELECT answers a port for its build only when its fetch is not running, and a
fetch lock is inserted only while the fetch is still untested. -/
def Gated (c : Cluster) : Event → Prop
  | .select _ _ _ ph row => ph = .build → c.db.phaseStatus row.id .fetch ≠ some .running
  | .insert machine => ∀ row, c.daemon machine = .picked row .fetch →
      c.db.lock row.id .fetch = none → c.db.phaseStatus row.id .fetch = some .untested
  | _ => True

/-- The same SELECT finds the lock of the fetch deleted. -/
def Released (c : Cluster) : Event → Prop
  | .select _ _ _ ph row => ph = .build → c.db.lock row.id .fetch = none
  | _ => True

theorem Peaceful.tame {c : Cluster} {e : Event} (h : Peaceful c e) : Tame (fun _ => False) True c e := by
  cases e with
  | interrupt | signal | killChildren => exact h.elim
  | _ => exact ⟨trivial, trivial, trivial, fun _ _ _ he => by cases he⟩

section Programs

def Before : Op → Prop
  | .sql (.selectLock _) | .sql (.selectPhaseResults _) | .sql (.insertPhaseResult _ _) => True
  | _ => False

def Starting : Magus Unit → Prop
  | .call _ κ => ∀ r, Begun (κ r)
  | _ => True

def Last : Magus Unit → Prop
  | .call _ κ => ∀ r, (κ r).Ended
  | _ => True

theorem starting_of_begun {q : Magus Unit} (h : Begun q) : Starting q := by
  cases q with
  | call o κ => exact fun r => Begun.answer h r
  | _ => trivial

theorem Last.bind {q : Magus Unit} {f : Unit → Magus Unit} (h : Last q) (hf : ∀ a, Begun (f a)) :
    Starting (q >>= f) := by
  cases q with
  | ret a => exact starting_of_begun (hf a)
  | raise e => trivial
  | exit code => trivial
  | call o κ =>
    intro r
    have hr := h r
    change Begun (κ r >>= f)
    generalize κ r = q at hr
    cases q with
    | ret a => exact hf a
    | raise e => trivial
    | exit code => trivial
    | call => exact hr.elim

theorem Starting.tryCatch {q : Magus Unit} {handler : Exn → Magus Unit} (h : Starting q)
    (hh : ∀ e, Begun (handler e)) : Starting (q.tryCatch handler) := by
  cases q with
  | ret a => trivial
  | raise e => exact starting_of_begun (hh e)
  | exit code => trivial
  | call o κ => exact fun r => Uses.tryCatch (h r) hh

theorem run_starts (l : Lock) : Until (S := magus) Before Starting (run l) := by
  have hset : Until (S := magus) Before Last (setPhaseStatus l.machine l.port.id l.phase .running) := by
    have hresult : Uses (S := magus) Before (fun _ _ => True) (phaseResult l.port.id l.phase) :=
      phaseResult_uses trivial trivial
    refine Until.bind (A := fun _ _ => True) (fun _ _ => trivial) hresult (fun _ => .reached ?_) ?_
    · intro r
      cases r <;> trivial
    · intro q hq
      cases q with
      | call => exact hq.elim
      | _ => trivial
  have hbody : Until (S := magus) Before Starting (runBody l) :=
    hset.bindLeft fun q hq => hq.bind fun _ => afterStart_begun l
  refine Until.tryCatch (C := Starting) ?_ fun q hq => hq.tryCatch (afterException_begun l)
  refine .call trivial fun r => ?_
  cases r with
  | error e => exact .reached trivial
  | ok found =>
    change Until (S := magus) Before Starting (if found = true then _ else _)
    split
    · exact hbody
    · exact .reached trivial

theorem begun_of_waits {q : Magus Unit} (h : Until (S := magus) Before Starting q) (hw : Waits q) :
    Begun q := by
  cases h with
  | @reached q hs =>
    cases q with
    | call o κ =>
      refine ⟨?_, fun r _ => hs r⟩
      rcases hw with hw | hw <;> cases hw <;> exact ⟨id, by simp [NoDelete]⟩
    | _ => trivial
  | call ho =>
    exfalso
    rcases hw with hw | hw <;> cases hw <;> exact ho

end Programs

/-- A daemon or a worker that has yet to set the fetch phase to 'running'. -/
def Yet (k : Kind) (q : Magus Unit) (l : Lock) : Prop :=
  l.phase = .fetch ∧ (k = .hand l ∨ k = .worker l ∧ ¬ Begun q)

def Building (p : PortId) (k : Kind) : Prop := Builds p k ∨ ∃ row, k = .picked row .build ∧ row.id = p

/-- What keeps the two phases of a port apart; with `strict`, also their workers. -/
structure Parted (strict : Prop) (c : Cluster) : Prop where
  orderly : Orderly (fun _ => False) True c
  plain : ∀ x k q, task c x = some (k, q) →
    (∀ p, k ≠ .resetPort p ∧ k ≠ .index p) ∧ ∀ l, k ≠ .burial l 6
  starts : ∀ pid l q, task c (.inl pid) = some (.worker l, q) → Until (S := magus) Before Starting q
  yet : ∀ x k q l, task c x = some (k, q) → Yet k q l →
    c.db.phaseStatus l.port.id .fetch = some .untested
  apart : ∀ x k q p, task c x = some (k, q) → Building p k →
    Fetched p c.db ∧ (strict → c.db.lock p .fetch = none)

namespace Parted
variable {strict : Prop} {c c' : Cluster} {e : Event}

theorem start {db : Db} (free : ∀ p ph, db.lock p ph = none) : Parted strict (Cluster.start db) where
  orderly := .start free
  plain := fun x _ _ h => by cases x <;> cases h
  starts := fun _ _ _ h => by cases h
  yet := fun x _ _ _ h => by cases x <;> cases h
  apart := fun x _ _ _ h => by cases x <;> cases h

theorem row_writer (h : Parted strict c) {pid : Pid} {k : Kind} {o : Op}
    {κ : Except Exn o.Res → Magus Unit} {ch : Choice} {r : Except Exn o.Res} {db : Db} {p : PortId}
    (ht : task c (.inl pid) = some (k, .call o κ)) (ha : answer c.db o ch = some (r, db))
    (hne : db.phaseRow p .fetch ≠ c.db.phaseRow p .fetch) :
    ∃ l s, (k = .worker l ∨ k = .makeChild l) ∧ l.port.id = p ∧ l.phase = .fetch ∧ o = .sql s ∧
      OwnStmt l Started s ∧ WritesRow p .fetch s := by
  obtain ⟨s, rfl, hw⟩ : ∃ s, o = .sql s ∧ WritesRow p .fetch s := by
    by_contra hno
    exact hne (answer_phaseRow ha fun s hs hw => hno ⟨s, hs, hw⟩)
  have hop := h.orderly.regular.conduct.op ht
  have own : ∀ {l : Lock}, OwnStmt l Started s → l.port.id = p ∧ l.phase = .fetch := by
    intro l hown
    cases s with
    | insertPhaseResult q ph => exact ⟨hown.1.symm.trans hw.1, hown.2.symm.trans hw.2⟩
    | updatePhaseResult q ph st machine => exact ⟨hown.1.symm.trans hw.1, hown.2.1.symm.trans hw.2⟩
    | updateResultStatus | insertPort => cases hown
    | _ => cases hw
  have done : ∀ {l : Lock}, k = .worker l ∨ k = .makeChild l → OwnStmt l Started s →
      ∃ l s', (k = .worker l ∨ k = .makeChild l) ∧ l.port.id = p ∧ l.phase = .fetch ∧
        Op.sql s = .sql s' ∧ OwnStmt l Started s' ∧ WritesRow p .fetch s' :=
    fun hk hown => ⟨_, s, hk, (own hown).1, (own hown).2, rfl, hown, hw⟩
  cases k with
  | worker l =>
    rcases hop with hop | ⟨hno, _⟩
    · exact done (.inl rfl) hop
    · exact hno.elim
  | makeChild l => exact done (.inr rfl) (OwnStmt.mono (fun _ hst => hst.1) hop)
  | burial l code =>
    rcases hop with rfl | ⟨rfl, _⟩
    · cases hw
    · exact absurd rfl ((h.plain _ _ _ ht).2 l)
  | killer l => exact ((h.orderly.quiet trivial).killer _ _ _ ht).elim
  | resetPort q => exact absurd rfl ((h.plain _ _ _ ht).1 q).1
  | index q => exact absurd rfl ((h.plain _ _ _ ht).1 q).2
  | _ => cases hop

theorem fetched_kept (h : Parted strict c) {y : Option Owner} {db : Db} (hm : Moved c e y db)
    {p : PortId} (hp : Fetched p c.db) : Fetched p db := by
  cases hm with
  | @call pid k o κ ch r db ht ha =>
    obtain ⟨st, hst, hfinal⟩ := hp
    by_cases hrow : db.phaseRow p .fetch = c.db.phaseRow p .fetch
    · exact ⟨st, by rw [Db.phaseStatus, hrow]; exact hst, hfinal⟩
    obtain ⟨l, s, hk, hport, hphase, rfl, hown, hw⟩ := h.row_writer ht ha hrow
    have hno : c.db.phaseStatus p .fetch ≠ some .running := by
      rw [hst]
      exact fun he => hfinal.2 (Option.some.inj he)
    -- who would set it to 'running' has found it untested
    have hnorunning : db.phaseStatus p .fetch ≠ some .running := by
      intro hyes
      obtain ⟨l', rfl, hport', hphase', hbegun⟩ :=
        running_writer h.orderly.regular.conduct ht ha hno hyes
      have huntested := h.yet _ _ _ l' ht ⟨hphase', .inr ⟨rfl, hbegun⟩⟩
      rw [hport', hst] at huntested
      exact hfinal.1 (Option.some.inj huntested)
    obtain ⟨x, hx, hexec⟩ | ⟨_, _, _, _, rfl⟩ := answer_sql ha
    · cases s with
      | insertPhaseResult q ph =>
        simp only [Stmt.exec, Option.ite_none_right_eq_some] at hexec
        obtain ⟨rfl, rfl⟩ := hw
        simp [Db.phaseStatus, hexec.1] at hst
      | updatePhaseResult q ph st' machine =>
        obtain ⟨rfl, rfl⟩ := hw
        subst hx
        have hafter : db.phaseStatus q .fetch = some st' := by
          rw [effect_updatePhaseResult (.inl ⟨ch, ha⟩), hst]
          rfl
        refine ⟨st', hafter, hown.2.2, ?_⟩
        rintro rfl
        exact hnorunning hafter
      | updateResultStatus | insertPort => cases hown
      | _ => cases hw
    · exact absurd rfl hrow
  | _ => exact hp

theorem released_kept (hg : Gated c e) {y : Option Owner} {db : Db}
    (hm : Moved c e y db) {p : PortId} (hp : Fetched p c.db) (hfree : c.db.lock p .fetch = none) :
    db.lock p .fetch = none := by
  cases hm with
  | @insert machine row ph ht hno =>
    obtain ⟨_, hx, hd⟩ := daemon_picked ht
    cases hx
    change put c.db.lock _ _ _ p .fetch = none
    rw [put_apply, if_neg]
    · exact hfree
    · rintro ⟨rfl, rfl⟩
      obtain ⟨st, hst, hfinal⟩ := hp
      rw [hg row hd hno] at hst
      exact hfinal.1 (Option.some.inj hst).symm
  | call ht ha =>
    by_contra hne
    obtain ⟨row, hrow⟩ := Option.ne_none_iff_exists'.1 hne
    exact absurd (answer_lock_sub ha hrow) (by simp [hfree])
  | _ => exact hfree

theorem apart_step (h : Parted strict c) (hm : Move c e c') (hg : Gated c e)
    (hs : strict → Released c e) : ∀ x k q p, task c' x = some (k, q) → Building p k →
      Fetched p c'.db ∧ (strict → c'.db.lock p .fetch = none) := by
  intro x k q p ht hk
  obtain ⟨y, hmoved⟩ := moved hm
  have kept : Fetched p c.db ∧ (strict → c.db.lock p .fetch = none) →
      Fetched p c'.db ∧ (strict → c'.db.lock p .fetch = none) := fun hp =>
    ⟨h.fetched_kept hmoved hp.1, fun hstrict => released_kept hg hmoved hp.1 (hp.2 hstrict)⟩
  refine kept ?_
  rcases hk with ⟨l, hl, hp, hph⟩ | ⟨row, rfl, hrow⟩
  · rcases lock_before h.orderly.regular.links hm ht hl with
      ⟨y, k₀, q₀, hold, hl₀⟩ | ⟨machine, row, ph, _, hd, _, rfl⟩
    · exact h.apart y k₀ q₀ p hold (.inl ⟨l, hl₀, hp, hph⟩)
    · cases hph
      exact h.apart _ _ _ p (task_daemon hd) (.inr ⟨row, rfl, hp⟩)
  · rcases accounted h.orderly.regular.links hm x _ ht with ⟨hold, _⟩ | hb
    · exact h.apart x _ q p hold (.inr ⟨row, rfl, hrow⟩)
    generalize c'.db = db at hb
    generalize hk : (Kind.picked row .build, q).1 = k at hb
    cases hb with
    | answered hold how =>
      subst hk
      exact h.apart x _ _ p hold (.inr ⟨row, rfl, hrow⟩)
    | selected hsel =>
      cases hk
      subst hrow
      have hready : ReadyBuild c.db row := hsel.ready.2.2
      obtain ⟨st, hst⟩ := Option.isSome_iff_exists.1 hready.1
      refine ⟨⟨st.status, by rw [Db.phaseStatus, hst]; rfl, ?_, ?_⟩, fun hstrict => hs hstrict rfl⟩
      · rintro he
        exact hready.2.1 (by rw [Db.phaseStatus, hst, ← he]; rfl)
      · rintro he
        exact hg rfl (by rw [Db.phaseStatus, hst, ← he]; rfl)
    | _ => cases hk

theorem bystander (h : Parted strict c) {x : Owner} {k : Kind} {q : Magus Unit} {l : Lock} {db : Db}
    (ht : task c x = some (k, q)) (hy : Yet k q l) (hi : Interferes c e x db) :
    db.phaseRow l.port.id .fetch = c.db.phaseRow l.port.id .fetch := by
  obtain ⟨y, hne, hmoved⟩ := hi
  have howns : Owns True k l := by
    rcases hy.2 with rfl | ⟨rfl, _⟩ <;> rfl
  have hlocked := h.orderly.locked ht howns (by rcases hy.2 with rfl | ⟨rfl, _⟩ <;> simp)
  cases hmoved with
  | @call pid k' o κ ch r db hcall ha =>
    by_contra hrow
    obtain ⟨l', s, hk', hport, hphase, _⟩ := h.row_writer hcall ha hrow
    have howns' : Owns True k' l' := by rcases hk' with rfl | rfl <;> rfl
    have hlocked' := h.orderly.locked hcall howns' (by simp)
    have hid : l.id = l'.id := by
      unfold Db.Locked at hlocked hlocked'
      rw [hport, hphase, ← hy.1, hlocked] at hlocked'
      exact Option.some.inj hlocked'
    have hxy : x ≠ .inl pid := fun he => hne (he ▸ rfl)
    rcases paired h.orderly.regular.ids h.orderly.waiting ht hcall hxy howns.lock howns'.lock hid with
      ⟨hk, _⟩ | ⟨hk, hwaits, _⟩
    · rcases hy.2 with hk₁ | ⟨hk₁, _⟩ <;> rw [hk₁] at hk <;> cases hk
    · rcases hy.2 with hk₁ | ⟨_, hbegun⟩
      · rw [hk₁] at hk
        cases hk
      · rcases x with pid' | machine
        · exact hbegun (begun_of_waits (h.starts pid' l q (hk ▸ ht)) hwaits)
        · cases hd : c.daemon machine <;> rw [hk, task_daemon hd] at ht <;> cases ht
  | _ => rfl

theorem yet_step (h : Parted strict c) (hm : Move c e c') (hg : Gated c e) : ∀ x k q l,
    task c' x = some (k, q) → Yet k q l → c'.db.phaseStatus l.port.id .fetch = some .untested := by
  intro x k q l ht hy
  have same : ∀ {db : Db}, db.phaseRow l.port.id .fetch = c.db.phaseRow l.port.id .fetch →
      c.db.phaseStatus l.port.id .fetch = some .untested →
      db.phaseStatus l.port.id .fetch = some .untested := by
    intro db hrow hst
    rw [Db.phaseStatus, hrow]
    exact hst
  rcases accounted h.orderly.regular.links hm x _ ht with ⟨hold, hi⟩ | hb
  · exact same (h.bystander hold hy hi) (h.yet x k q l hold hy)
  generalize c'.db = db at hb
  cases hb with
  | @answered _ _ _ k o κ r hold how =>
    rcases hy with ⟨hph, rfl | ⟨rfl, hbegun⟩⟩
    · obtain ⟨_, rfl, hd⟩ := daemon_hand hold
      cases how
    have hbefore := h.yet _ _ _ l hold ⟨hph, .inr ⟨rfl, fun hb => hbegun (hb.answer r)⟩⟩
    refine same ?_ hbefore
    by_contra hrow
    cases how with
    | @chosen pid ch _ _ _ _ ha =>
      obtain ⟨_, s, _, _, _, rfl, _, hw⟩ := h.row_writer hold ha hrow
      cases h.starts _ _ _ hold with
      | reached hs => exact hbegun (hs r)
      | call ho =>
        cases s with
        | insertPhaseResult q ph =>
          obtain ⟨rfl, rfl⟩ := hw
          rcases answer_sql ha with ⟨x, _, hexec⟩ | ⟨_, _, _, _, rfl⟩
          · simp only [Stmt.exec, Option.ite_none_right_eq_some] at hexec
            simp [Db.phaseStatus, hexec.1] at hbefore
          · exact hrow rfl
        | _ => first | exact ho.elim | cases hw
    | _ => exact hrow rfl
  | started hold =>
    rcases hy with ⟨hph, hk | ⟨hk, _⟩⟩ <;> cases hk
    exact h.yet _ _ _ l hold ⟨hph, .inl rfl⟩
  | inserted hold hfree =>
    rcases hy with ⟨hph, hk | ⟨hk, _⟩⟩ <;> cases hk
    obtain ⟨_, hx, hd⟩ := daemon_picked hold
    cases hx
    cases hph
    exact hg _ hd hfree
  | _ => rcases hy.2 with hk | ⟨hk, _⟩ <;> cases hk

theorem plain_step (h : Parted strict c) (hm : Move c e c') (hp : Peaceful c e) :
    ∀ x k q, task c' x = some (k, q) →
      (∀ p, k ≠ .resetPort p ∧ k ≠ .index p) ∧ ∀ l, k ≠ .burial l 6 := by
  intro x k q ht
  rcases accounted h.orderly.regular.links hm x _ ht with ⟨hold, _⟩ | hb
  · exact h.plain x k q hold
  generalize c'.db = db at hb
  cases hb with
  | answered hold how => exact h.plain _ _ _ hold
  | buried hold =>
    refine ⟨by simp, fun l hl => ?_⟩
    cases hl
    exact hp _ hold
  | resetting | indexing | indexingDepends => exact hp.elim
  | _ => exact ⟨by simp, by simp⟩

theorem starts_step (h : Parted strict c) (hm : Move c e c') : ∀ pid l q,
    task c' (.inl pid) = some (.worker l, q) → Until (S := magus) Before Starting q := by
  intro pid l q ht
  rcases MagusStanding.worker_before h.orderly.regular.links hm ht with ⟨q', hold, hq⟩ | ⟨_, _, _, rfl⟩
  · have hstarts := h.starts pid l q' hold
    rcases hq with rfl | ⟨o, κ, r, rfl, rfl⟩
    · exact hstarts
    · exact hstarts.answer (fun hs r => starting_of_begun (hs r)) r
  · exact run_starts l

theorem step (h : Parted strict c) (hm : Move c e c') (hp : Peaceful c e) (hg : Gated c e)
    (hs : strict → Released c e) : Parted strict c' where
  orderly := h.orderly.step hm hp.tame
  plain := h.plain_step hm hp
  starts := h.starts_step hm
  yet := h.yet_step hm hg
  apart := h.apart_step hm hg hs

end Parted

/-- In every peaceful run in which no port whose fetch is running is answered for its
build, and no fetch lock is inserted on a SELECT that is out of date, a build worker is
started only after the fetch has come to its result, and the result stays. If also the
fetch lock has gone before the SELECT, no fetch worker lives beside the build worker. -/
theorem build_after_fetch {db : Db} (free : ∀ p ph, db.lock p ph = none)
    {h : List (Cluster × Event)} {c : Cluster} (run : Run Cluster.Step (Cluster.start db) h c)
    (all : AllSteps (fun c e => Peaceful c e ∧ Gated c e) h) :
    (∀ x ∈ h, ∀ machine pid l, x.2 = .startChild machine pid → x.1.daemon machine = .hand l →
      l.phase = .build → Fetched l.port.id x.1.db) ∧
    (∀ pid l q, task c (.inl pid) = some (.worker l, q) → l.phase = .build →
      Fetched l.port.id c.db) ∧
    (AllSteps Released h → ∀ pid pid' l l' q q', task c (.inl pid) = some (.worker l, q) →
      l.phase = .build → task c (.inl pid') = some (.worker l', q') → l'.phase = .fetch →
        l.port.id ≠ l'.port.id) := by
  have reach : ∀ {h c}, Run Cluster.Step (Cluster.start db) h c →
      AllSteps (fun c e => Peaceful c e ∧ Gated c e) h → Parted False c := fun run all =>
    run.invariant (Parted False) all (.start free) fun _ _ _ hI hstep hok =>
      hI.step (Cluster.step_move hstep) hok.1 hok.2 False.elim
  refine ⟨?_, ?_, ?_⟩
  · rintro ⟨c, e⟩ hx machine pid l _ hd hph
    obtain ⟨h', run', hsuffix⟩ := run.before hx
    exact ((reach run' (all.suffix hsuffix)).apart _ _ _ _ (task_daemon hd)
      (.inl ⟨l, rfl, rfl, hph⟩)).1
  · intro pid l q ht hph
    exact ((reach run all).apart _ _ _ _ ht (.inl ⟨l, rfl, rfl, hph⟩)).1
  · intro released pid pid' l l' q q' ht hph ht' hph' hport
    have hboth : AllSteps (fun c e => (Peaceful c e ∧ Gated c e) ∧ Released c e) h :=
      fun x hx => ⟨all x hx, released x hx⟩
    have hparted : Parted True c := run.invariant (Parted True) hboth (.start free)
      fun _ _ _ hI hstep hok => hI.step (Cluster.step_move hstep) hok.1.1 hok.1.2 fun _ => hok.2
    have hfree := (hparted.apart _ _ _ _ ht (.inl ⟨l, rfl, rfl, hph⟩)).2 trivial
    have hlocked := hparted.orderly.locked ht' (show Owns True _ l' from rfl) (by simp)
    rw [Db.Locked, ← hport, hph', hfree] at hlocked
    cases hlocked

section Samples

def Calm (c : Cluster) : Event → Bool
  | .select _ _ _ ph row => decide (ph = .build →
      c.db.phaseStatus row.id .fetch ≠ some .running ∧ c.db.lock row.id .fetch = none)
  | .insert machine => match c.daemon machine with
    | .picked row .fetch => decide (c.db.phaseStatus row.id .fetch = some .untested)
    | _ => true
  | .bury pid => match task c (.inl pid) with
    | some (.corpse _ 6, _) => false
    | _ => true
  | .call .. | .fork .. | .waited _ | .exit _ | .giveUp _ | .startChild .. | .forkFailed _ | .reap _
  | .tick => true
  | _ => false

theorem fetched_before_build : ∃ h c, Run Cluster.Step (Cluster.start freshDb) h c ∧
    (∃ l q, task c (.inl 30) = some (.worker l, q) ∧ l.port.id = 0 ∧ l.phase = .build) ∧
      Fetched 0 c.db ∧ ∀ pid l q, task c (.inl pid) = some (.worker l, q) → l.phase = .fetch →
        l.port.id ≠ 0 := by
  obtain ⟨h, c, run, hf⟩ := reached_of_history Cluster.next (s := Cluster.start freshDb)
    (w := taken 1 samplePort .fetch 20 ++ calls 20 7 ++
      [.fork 20 40, .call 40 .done, .call 40 (.results { summary := .pass })] ++ calls 40 2 ++
      [.exit 40, .waited 20] ++ calls 20 5 ++ released 20 ++ taken 2 samplePort .build 30)
    (f := fun x => (x.1.all fun y => Calm y.1 y.2) && (task x.2 (.inl 30)).any fun t =>
      t.1.isWorker fun l => decide (l.port.id = 0) && decide (l.phase = .build)) (by decide +kernel)
  simp only [Bool.and_eq_true, List.all_eq_true, Option.any_eq_true] at hf
  obtain ⟨hsteps, ⟨k, q⟩, ht, hk⟩ := hf
  have hok : ∀ x ∈ h, (Peaceful x.1 x.2 ∧ Gated x.1 x.2) ∧ Released x.1 x.2 := by
    rintro ⟨c, e⟩ hx
    have he := hsteps _ hx
    cases e with
    | select =>
      have hsel := of_decide_eq_true he
      exact ⟨⟨trivial, fun hph => (hsel hph).1⟩, fun hph => (hsel hph).2⟩
    | insert machine =>
      refine ⟨⟨trivial, fun row hd _ => ?_⟩, trivial⟩
      change c.daemon machine = _ at hd
      simpa [Calm, hd] using he
    | bury pid =>
      refine ⟨⟨fun l hcorpse => ?_, trivial⟩, trivial⟩
      simp [Calm, hcorpse] at he
    | call | fork | waited | exit | giveUp | startChild | forkFailed | reap | tick =>
      exact ⟨⟨trivial, trivial⟩, trivial⟩
    | _ => cases he
  have hparts := build_after_fetch (fun _ _ => rfl) run fun x hx => (hok x hx).1
  cases k with
  | worker l =>
    simp only [Kind.isWorker, Bool.and_eq_true, decide_eq_true_eq] at hk
    refine ⟨h, c, run, ⟨l, q, ht, hk⟩, hk.1 ▸ hparts.2.1 30 l q ht hk.2, ?_⟩
    intro pid l' q' ht' hph' hport
    exact hparts.2.2 (fun x hx => (hok x hx).2) 30 pid l l' q q' ht hk.2 ht' hph' (hk.1.trans hport.symm)
  | _ => cases hk

/-- A worker of a running fetch, and in hand a build of its port. -/
def Beside (db : Db) : Kind → Daemon → Bool
  | .worker l, .hand l' => decide (l'.phase = .build ∧ l'.port.id = l.port.id ∧ l.phase = .fetch ∧
      db.phaseStatus l'.port.id .fetch = some .running)
  | _, _ => false

/-- The view counts a running fetch as one that was made: a second slave starts the
build of the port while the worker of its fetch is at work. -/
theorem build_beside_fetch : ∃ h c l l' q, Run Cluster.Step (Cluster.start freshDb) h c ∧
    (∀ x ∈ h, Peaceful x.1 x.2) ∧ c.daemon 2 = .hand l' ∧ l'.phase = .build ∧
      l'.port.id = l.port.id ∧ l.phase = .fetch ∧
      c.db.phaseStatus l'.port.id .fetch = some .running ∧
      ∃ c', Cluster.Step c (.startChild 2 30) c' ∧ task c' (.inl 20) = some (.worker l, q) ∧
        task c' (.inl 30) = some (.worker l', MagusWorker.run l') := by
  obtain ⟨h, c, run, hf⟩ := reached_of_history Cluster.next (s := Cluster.start freshDb)
    (w := taken 1 samplePort .fetch 20 ++ calls 20 3 ++
      [.select 2 1 (some ["build"]) .build samplePort, .insert 2])
    (f := fun x => (x.1.all fun y => Starts y.2) && (x.2.next (.startChild 2 30)).isSome &&
      (task x.2 (.inl 20)).any fun t => Beside x.2.db t.1 (x.2.daemon 2)) (by decide +kernel)
  simp only [Bool.and_eq_true, List.all_eq_true, Option.any_eq_true] at hf
  obtain ⟨⟨hsteps, hnext⟩, ⟨k, q⟩, ht, hk⟩ := hf
  have hok : ∀ x ∈ h, Peaceful x.1 x.2 := by
    rintro ⟨c, e⟩ hx
    have he := hsteps _ hx
    cases e <;> trivial
  unfold Beside at hk
  split at hk
  · rename_i l l' hl hd
    obtain rfl : k = .worker l := hl
    obtain ⟨hph', hport, hph, hrunning⟩ := of_decide_eq_true hk
    obtain ⟨c', last⟩ := Option.isSome_iff_exists.1 hnext
    refine ⟨h, c, l, l', q, run, hok, hd, hph', hport, hph, hrunning, c', last, ?_⟩
    cases Cluster.step_move last with
    | startChild hd' hfree =>
      rw [hd] at hd'
      cases hd'
      exact ⟨by simpa [task, view, Cluster.setProc] using ht,
        by simp [task, view, Cluster.setProc, procTask]⟩
  · cases hk

end Samples
end Mports.MagusPrefetch
