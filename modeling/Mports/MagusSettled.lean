import Mports.MagusAgreement

set_option autoImplicit false

namespace Mports.MagusSettled
open MagusTables MagusStatements MagusFootprint MagusEffects MagusCluster
open MagusHolders MagusChildren MagusTasks MagusConduct MagusEndings MagusTending
open MagusAgreement StatementPrograms LabelledRuns

section Condition
variable (p : PortId)

def Writes (o : Op) : Prop := ∃ st, o = .sql st ∧ (WritesStatus p st ∨ WritesRow p .build st)

/-- `reset_port.cgi` and indexing, which take no lock. -/
def Outsider (k : Kind) : Prop := k = .resetPort p ∨ k = .index p

/-- Everybody at a build of the port, or without a lock at the port. -/
def At (k : Kind) : Prop :=
  (∃ l, under k = some l ∧ l.phase = .build ∧ l.port.id = p) ∨ Outsider p k

/-- The port has no build lock, and no reset or indexing of it is under way. -/
def Quiet (c : Cluster) : Prop :=
  c.db.lock p .build = none ∧ ∀ x k q, task c x = some (k, q) → ¬ Outsider p k

/-- What everybody is asked to do. Who works under a lock writes only while the port has that
build lock. Who writes is alone at the port, but for the worker that waits for him. While the
two differ, nothing that happens to a build is passed over in silence, and no statement
of a reset or of indexing fails. The dependencies are indexed while the port is quiet. -/
structure Careful (c : Cluster) (e : Event) : Prop where
  locked : ∀ pid ch k o κ l, e = .call pid ch → task c (.inl pid) = some (k, .call o κ) →
    Writes p o → under k = some l → Open p l c.db
  alone : ∀ pid ch k o κ x k' q', e = .call pid ch → task c (.inl pid) = some (k, .call o κ) →
    Writes p o → x ≠ .inl pid → task c x = some (k', q') → At p k' →
      (∃ l, k = .makeChild l ∧ k' = .worker l) ∧ Waits q'
  reports : Reports (Settled p) c e
  whole : ∀ pid ch k o κ err db, e = .call pid ch → task c (.inl pid) = some (k, .call o κ) →
    Outsider p k → answer c.db o ch = some (.error err, db) → Agree c.db p
  depends : ∀ pid machine depends, e = .indexDepends pid machine p depends → Quiet p c

structure Settling (c : Cluster) : Prop where
  regular : Regular (fun _ => True) c
  known : Known c
  tends : ∀ x k q, task c x = some (k, q) → Tends (Kept p) (Settled p) k q c.db
  outside : ∀ x k q, task c x = some (k, q) → Outsider p k →
    Outline (outsideSetting p) (fun _ => Told (Agree · p)) q (c.db, False)
  agree : Quiet p c → Agree c.db p

end Condition

section Writers
variable {p : PortId} {c c' : Cluster} {e : Event}

theorem moved_pair {y : Option Owner} {db : Db} (h : Moved c e y db) : pair db p = pair c.db p ∨
    ∃ pid ch k o κ, y = some (.inl pid) ∧ e = .call pid ch ∧ task c (.inl pid) = some (k, .call o κ) ∧
      Writes p o := by
  cases h with
  | still => exact .inl rfl
  | tick => exact .inl rfl
  | insert => exact .inl rfl
  | @call pid k o κ ch r db ht ha =>
    by_cases hw : Writes p o
    · exact .inr ⟨pid, ch, k, o, κ, rfl, rfl, ht, hw⟩
    · refine .inl (effect_pair (.inl ⟨ch, ha⟩) fun st hst => ?_)
      rw [← not_or]
      exact fun h => hw ⟨st, hst, h⟩

theorem open_moved {y : Option Owner} {db : Db} {l : Lock} (h : Moved c e y db)
    (hid : l.id < c.db.nextLock) (hl : Open p l db) : Open p l c.db := by
  refine ⟨hl.1, hl.2.1, ?_⟩
  cases h with
  | still => exact hl.2.2
  | tick => exact hl.2.2
  | insert => exact locked_of_insert hid hl.2.2
  | call _ ha => exact Effect.locked_before (.inl ⟨_, ha⟩) hl.2.2

theorem writer {handled : Lock → Prop} (conduct : Conduct handled c) {x : Owner} {k : Kind} {o : Op}
    {κ : Except Exn o.Res → Magus Unit} (ht : task c x = some (k, .call o κ)) (hw : Writes p o) :
    (∃ l, under k = some l) ∨ Outsider p k := by
  obtain ⟨st, rfl, hw⟩ := hw
  have hop := conduct.op ht
  cases k with
  | worker l | corpse l code | burial l code | makeChild l | childCorpse l st | killer l | hand l =>
    exact .inl ⟨l, rfl⟩
  | resetPort q =>
    obtain rfl : q = p := by
      cases st <;> simp_all [KindOp, ResetOp, ResetStmt, WritesStatus, WritesRow]
    exact .inr (.inl rfl)
  | index q =>
    obtain rfl : q = p := by
      cases st <;> simp_all [KindOp, IndexOp, IndexStmt, WritesStatus, WritesRow]
    exact .inr (.inr rfl)
  | picked => cases hop

theorem exitStatus_ended {q : Magus Unit} {st : WaitStatus} (h : Cluster.exitStatus q = some st) :
    q.Ended := by
  cases q with
  | call => cases h
  | _ => trivial

theorem outsider_after (hm : Move c e c') {x : Owner} {k : Kind} {q : Magus Unit}
    (ht : task c x = some (k, q)) (hk : Outsider p k) :
    (∃ q', task c' x = some (k, q')) ∨ q.Ended ∧ c'.db = c.db := by
  obtain ⟨pid, proc, rfl, hproc, hprog⟩ : ∃ pid proc, x = .inl pid ∧ c.procs pid = some proc ∧
      procTask proc = (k, q) := by
    rcases x with pid | machine
    · obtain ⟨proc, hproc, htask⟩ := Option.map_eq_some_iff.1 ht
      exact ⟨pid, proc, rfl, hproc, htask⟩
    · cases hd : c.daemon machine <;> rw [task_daemon hd] at ht <;> cases ht <;>
        rcases hk with hk | hk <;> cases hk
  have stays : c'.procs pid = some proc → ∃ q', task c' (.inl pid) = some (k, q') :=
    fun h => ⟨q, by rw [task_proc h, hprog]⟩
  have other : ∀ {pid' : Pid} {old : Proc}, c.procs pid' = some old → ¬ Outsider p (procTask old).1 →
      pid ≠ pid' := by
    rintro pid' old hold hno rfl
    rw [hproc, Option.some.injEq] at hold
    rw [← hold, hprog] at hno
    exact hno hk
  have fresh : ∀ {pid' : Pid}, c.procs pid' = none → pid ≠ pid' := by
    rintro pid' hfree rfl
    rw [hproc] at hfree
    cases hfree
  have left : ∀ {s : Cluster} {pid' : Pid} {new : Option Proc}, s.procs pid = some proc → pid ≠ pid' →
      (s.setProc pid' new).procs pid = some proc := by
    intro s pid' new hs hne
    rw [Cluster.setProc_procs, Function.update_of_ne hne, hs]
  cases hm with
  | @call pid' ch proc' o κ r db hproc' hprog' ha =>
    by_cases hsame : pid = pid'
    · subst hsame
      obtain rfl := Option.some.inj (hproc.symm.trans hproc')
      refine .inl ⟨κ r, ?_⟩
      obtain ⟨_, hnew⟩ := withProg_task (w := κ r) hprog'
      rw [hprog] at hnew
      rw [← hnew]
      exact task_proc (by rw [Cluster.setProc_procs, Function.update_self])
    · exact .inl (stays (left hproc hsame))
  | fork hproc' hfree =>
    exact .inl (stays (left (left hproc (other hproc' (by simp [Outsider, procTask]))) (fresh hfree)))
  | waited hproc' hchild | waitedAgain hproc' hchild =>
    exact .inl (stays (left (left hproc (other hproc' (by simp [Outsider, procTask])))
      (other hchild (by simp [Outsider, procTask]))))
  | interruptWait hproc' | interruptWorker hproc' | interruptChild hproc' | signalWorker hproc'
  | signalChild hproc' | exitWorker hproc' | exitChild hproc' | buried hproc' | postponed hproc'
  | killed hproc' | killAbandoned hproc' | reap hproc' | bury hproc' =>
    exact .inl (stays (left hproc (other hproc' (by simp [Outsider, procTask]))))
  | startChild _ hfree | killNext _ hfree | resetPort hfree | index hfree | indexDepends hfree =>
    exact .inl (stays (left hproc (fresh hfree)))
  | @exitReset pid' _ _ _ hproc' hst | @exitIndex pid' _ _ _ hproc' hst =>
    by_cases hsame : pid = pid'
    · subst hsame
      obtain rfl := Option.some.inj (hproc.symm.trans hproc')
      cases hprog
      exact .inr ⟨exitStatus_ended hst, rfl⟩
    · exact .inl (stays (left hproc hsame))
  | @killChildren machine kid stopped reaped hstop hreap =>
    have hstopped : stopped.procs pid = some proc := by
      rcases hstop with ⟨rfl, _⟩ | ⟨_, _, _, _, _, hproc', rfl⟩
      · exact hproc
      · exact left hproc (other hproc' (by simp [Outsider, procTask]))
    rcases hreap with ⟨_, rfl⟩ | ⟨_, _, _, _, hproc', _, rfl⟩
    · exact .inl (stays hstopped)
    · exact .inl (stays (left hstopped (other hproc' (by simp [Outsider, procTask]))))
  | _ => exact .inl (stays hproc)

end Writers

namespace Settling
variable {p : PortId} {c c' : Cluster} {e : Event}

theorem start {db : Db} (free : ∀ p ph, db.lock p ph = none) (h : Agree db p) :
    Settling p (Cluster.start db) where
  regular := .start free
  known := fun x _ _ _ h => by cases x <;> cases h
  tends := fun x _ _ h => by cases x <;> cases h
  outside := fun x _ _ h => by cases x <;> cases h
  agree := fun _ => h

theorem bystander (t : Settling p c) (hw : Careful p c e) {x : Owner} {k : Kind} {q : Magus Unit}
    {l : Lock} {P : Db → Prop} {db : Db} (ht : task c x = some (k, q)) (hl : under k = some l)
    (hi : Interferes c e x db) (hP : Kept p l q.pending P) (hs : P c.db) : P db := by
  obtain ⟨y, hne, hmoved⟩ := hi
  rcases hP with ⟨hawake, Q, rfl⟩ | ⟨row, rfl⟩
  · intro hopen
    have hbefore := hs (open_moved hmoved (t.known x k q l ht hl) hopen)
    rcases moved_pair (p := p) hmoved with hsame | ⟨pid, ch, k', o, κ, rfl, rfl, hcall, hwrites⟩
    · rwa [hsame]
    · have hx : x ≠ .inl pid := fun he => hne (he ▸ rfl)
      have hwait := (hw.alone pid ch k' o κ x k q rfl hcall hwrites hx ht
        (.inl ⟨l, hl, hopen.1, hopen.2.1⟩)).2
      rcases hwait with hwait | hwait
      · rw [hwait] at hawake
        exact hawake.elim
      · rw [hwait] at hawake
        exact hawake.elim
  · cases hmoved with
    | call _ ha => exact answer_ports ha hs
    | _ => exact hs

theorem outside_step (t : Settling p c) (hm : Move c e c') (hw : Careful p c e) :
    ∀ x k q, task c' x = some (k, q) → Outsider p k →
      Outline (outsideSetting p) (fun _ => Told (Agree · p)) q (c'.db, False) := by
  intro x k q ht hk
  have told : ∀ {q : Magus Unit} {s : Db × Prop}, Concludes p q s →
      Outline (outsideSetting p) (fun _ => Told (Agree · p)) q s := by
    refine fun h => h.mono fun x t ht => ?_
    cases x with
    | ret => exact .inr ht
    | _ => exact ht
  rcases accounted t.regular.links hm x _ ht with ⟨hold, y, hne, hmoved⟩ | hb
  · refine (t.outside x k q hold hk).rely ⟨Iff.rfl, ?_⟩
    rintro _ ⟨Q, rfl⟩ hs
    rcases moved_pair (p := p) hmoved with hsame | ⟨pid, ch, k', o, κ, rfl, rfl, hcall, hwrites⟩
    · rwa [hsame]
    · have hx : x ≠ .inl pid := fun he => hne (he ▸ rfl)
      obtain ⟨⟨l, _, hworker⟩, _⟩ := hw.alone pid ch k' o κ x k q rfl hcall hwrites hx hold (.inr hk)
      rcases hk with rfl | rfl <;> cases hworker
  generalize c'.db = db at hb
  cases hb with
  | answered hold how =>
    refine (t.outside _ _ _ hold hk).answer ⟨how.effect, ?_⟩
    refine ⟨False.elim, ?_⟩
    rintro ⟨⟨err, rfl⟩, hno⟩
    cases how with
    | chosen ha => exact hno (hw.whole _ _ _ _ _ _ _ rfl hold hk ha)
    | raised hkind => rcases hkind with ⟨_, rfl, _⟩ | ⟨_, rfl⟩ <;> rcases hk with hk | hk <;> cases hk
  | resetting =>
    rcases hk with hk | hk <;> cases hk
    exact told (reset_concludes _)
  | indexing =>
    rcases hk with hk | hk <;> cases hk
    exact told (indexPort_concludes _ _ _ _)
  | indexingDepends =>
    rcases hk with hk | hk <;> cases hk
    exact told (indexDepends_concludes _ _ (t.agree (hw.depends _ _ _ rfl)))
  | _ => rcases hk with hk | hk <;> cases hk

theorem agree_step (t : Settling p c) (hm : Move c e c') (hw : Careful p c e) (hq : Quiet p c') :
    Agree c'.db p := by
  obtain ⟨y, hmoved⟩ := moved hm
  by_cases hlock : c.db.lock p .build = none
  · by_cases hout : ∃ x k q, task c x = some (k, q) ∧ Outsider p k
    · obtain ⟨x, k, q, ht, hk⟩ := hout
      rcases outsider_after hm ht hk with ⟨q', hstill⟩ | ⟨hended, hdb⟩
      · exact absurd hk (hq.2 x k q' hstill)
      · have hout := t.outside x k q ht hk
        rw [hdb]
        cases q with
        | ret => exact (Outline.ended_ret hout).resolve_left id
        | raise => exact (Outline.ended_raise hout).resolve_left id
        | exit => exact (Outline.ended_exit hout).resolve_left id
        | call => cases hended
    · have hnone : ∀ x k q, task c x = some (k, q) → ¬ Outsider p k :=
        fun x k q ht hk => hout ⟨x, k, q, ht, hk⟩
      have hagree := t.agree ⟨hlock, hnone⟩
      rcases moved_pair (p := p) hmoved with hsame | ⟨pid, ch, k, o, κ, rfl, rfl, hcall, hwrites⟩
      · rwa [Agree, hsame]
      · exfalso
        rcases writer t.regular.conduct hcall hwrites with ⟨l, hl⟩ | hk
        · obtain ⟨hphase, hport, hlocked⟩ := hw.locked pid ch k o κ l rfl hcall hwrites hl
          rw [Db.Locked, hport, hphase, hlock] at hlocked
          cases hlocked
        · exact hnone _ _ _ hcall hk
  · -- the lock went in this step, and its phase was over
    generalize hdb : c'.db = db at hmoved
    have hgone : db.lock p .build = none := hdb ▸ hq.1
    cases hmoved with
    | still => exact absurd hgone hlock
    | tick => exact absurd hgone hlock
    | insert ht hfree =>
      change put _ _ _ _ _ _ = none at hgone
      rw [put_apply] at hgone
      split at hgone
      · cases hgone
      · exact absurd hgone hlock
    | @call pid k o κ ch r db hcall ha =>
      obtain ⟨l, rfl, hlocked, hport, hphase, hover⟩ :=
        over_deleted t.regular.conduct t.tends hcall ha hlock hgone
      have hsame : pair db p = pair c.db p := effect_pair (.inl ⟨ch, ha⟩) (by
        rintro _ ⟨rfl⟩
        exact ⟨id, id⟩)
      rw [Agree, hsame]
      exact hover ⟨hphase, hport, hlocked⟩

theorem step (t : Settling p c) (hm : Move c e c') (hw : Careful p c e) : Settling p c' where
  regular := t.regular.step hm (handles_all c e)
  known := known_step t.regular hm t.known
  tends := tends_step (programs p) t.regular.links hm hw.reports
    (fun _ _ _ _ _ ht hl hi hP hs => t.bystander hw ht hl hi hP hs) t.tends
  outside := t.outside_step hm hw
  agree := t.agree_step hm hw

end Settling

/-- In every run in which everybody takes care of a port, its status and its build row
agree in every state in which it has no build lock and nobody resets or indexes it. -/
theorem results_agree {db : Db} {p : PortId} (free : ∀ p ph, db.lock p ph = none) (agree : Agree db p)
    {h : List (Cluster × Event)} {c : Cluster} (run : Run Cluster.Step (Cluster.start db) h c)
    (all : AllSteps (Careful p) h) (quiet : Quiet p c) :
    ∀ st, c.db.phaseStatus p .build = some st →
      c.db.status p = st ∨ c.db.status p = .untested ∧ st = .running := by
  have ht := run.invariant (Settling p) all (.start free agree) fun _ _ _ hI hstep hw =>
    hI.step (Cluster.step_move hstep) hw
  intro st hst
  have hagree := ht.agree quiet
  simpa [Agree, Agrees, pair, hst] using hagree

def births : Event → List Owner
  | .fork _ child => [.inl child]
  | .startChild _ pid | .killNext _ pid | .resetPort pid _ | .index pid _ _ _
  | .indexDepends pid _ _ _ => [.inl pid]
  | .select machine _ _ _ _ | .insert machine => [.inr machine]
  | _ => []

theorem born {db : Db} {h : List (Cluster × Event)} {c : Cluster}
    (run : Run Cluster.Step (Cluster.start db) h c) {x : Owner} {k : Kind} {q : Magus Unit}
    (ht : task c x = some (k, q)) : ∃ y ∈ h, x ∈ births y.2 := by
  induction run generalizing k q with
  | start => cases x <;> cases ht
  | @next h s c e run last ih =>
    have links : Links s := run.invariant (K := fun _ _ => True) Links (fun _ _ => trivial) (.start db)
      fun _ _ _ hI hstep _ => hI.step (Cluster.step_move hstep)
    have before : ∀ {k q}, task s x = some (k, q) → ∃ y ∈ (s, e) :: h, x ∈ births y.2 := by
      intro k q hold
      obtain ⟨y, hy, hx⟩ := ih hold
      exact ⟨y, List.mem_cons_of_mem _ hy, hx⟩
    rcases accounted links (Cluster.step_move last) x _ ht with ⟨hold, _⟩ | hb
    · exact before hold
    generalize c.db = db' at hb
    cases hb with
    | answered hold | workerSignaled hold | childSignaled hold | workerEnded hold | childEnded hold
    | postponed hold | abandoned hold | buried hold => exact before hold
    | _ => exact ⟨_, List.mem_cons_self, by simp [births]⟩

theorem answer_fail {db db' : Db} {o : Op} {ch : Choice} {err : Exn}
    (h : answer db o ch = some (.error err, db')) : ∃ e, ch = .fail e := by
  cases ch with
  | fail e => exact ⟨e, rfl⟩
  | _ => cases o <;> simp [answer] at h

instance (x : Status × Option Status) : Decidable (Agrees x) := inferInstanceAs (Decidable (_ ∨ _ ∧ _))

instance (db : Db) (p : PortId) : Decidable (Agree db p) := inferInstanceAs (Decidable (Agrees _))

section Watched
variable (p : PortId) (owners : List Owner)

def writing : Op → Bool
  | .sql (.updateStatus q _) => q = p
  | .sql (.insertPort row) => row.id = p
  | .sql (.insertPhaseResult q ph) | .sql (.updatePhaseResult q ph _ _) | .sql (.updateResultStatus q ph _) =>
      q = p && ph = .build
  | _ => false

theorem writing_of_writes {o : Op} (h : Writes p o) : writing p o = true := by
  obtain ⟨st, rfl, h | h⟩ := h <;> cases st <;> simp_all [WritesStatus, WritesRow, writing]

def yields (k : Kind) (t : Kind × Magus Unit) : Bool :=
  match k, t.1 with
  | .makeChild l, .worker l' => l = l' && (t.2.pending = some .waitpid || t.2.pending = some .waitpidAgain)
  | _, _ => false

def isMakeChild : Kind → Bool
  | .makeChild _ => true
  | _ => false

/-- A task that writes has its lock, and nobody else has a task, but for the worker that waits. -/
def guarded (c : Cluster) (pid : Pid) (t : Kind × Magus Unit) : Bool :=
  ((under t.1).all fun l => l.phase = .build && l.port.id = p && decide (c.db.Locked l)) &&
    owners.all fun x => x = .inl pid || (task c x).all (yields t.1)

def watched (c : Cluster) : Event → Bool
  | .call _ (.fail _) | .signal .. | .indexDepends .. => false
  | .call pid _ => (task c (.inl pid)).all fun t =>
      (t.2.pending.all fun o => !writing p o || guarded p owners c pid t) && (decide (Agree c.db p) || isMakeChild t.1)
  | _ => decide (Agree c.db p)

variable {p owners} {c : Cluster} {e : Event}

theorem guarded_iff {pid : Pid} {k : Kind} {q : Magus Unit} (only : ∀ x k q, task c x = some (k, q) → x ∈ owners)
    (h : guarded p owners c pid (k, q) = true) : (∀ l, under k = some l → Open p l c.db) ∧
      ∀ x k' q', x ≠ .inl pid → task c x = some (k', q') → (∃ l, k = .makeChild l ∧ k' = .worker l) ∧ Waits q' := by
  simp only [guarded, Bool.and_eq_true, Option.all_eq_true, List.all_eq_true, Bool.or_eq_true, decide_eq_true_eq] at h
  refine ⟨fun l hl => ⟨(h.1 l hl).1.1, (h.1 l hl).1.2, (h.1 l hl).2⟩, fun x k' q' hne hx => ?_⟩
  have hyields := (h.2 x (only x k' q' hx)).resolve_left hne _ hx
  cases k with
  | makeChild l =>
    cases k' with
    | worker l' =>
      simp only [yields, Bool.and_eq_true, Bool.or_eq_true, decide_eq_true_eq] at hyields
      exact ⟨⟨l, rfl, by rw [hyields.1]⟩, hyields.2⟩
    | _ => cases hyields
  | _ => cases hyields

theorem watched_call {pid : Pid} {ch : Choice} {k : Kind} {o : Op} {κ : Except Exn o.Res → Magus Unit}
    (ht : task c (.inl pid) = some (k, .call o κ)) (h : watched p owners c (.call pid ch) = true) :
    (Writes p o → guarded p owners c pid (k, .call o κ) = true) ∧ (Agree c.db p ∨ isMakeChild k = true) ∧
      ∀ err, ch ≠ .fail err := by
  have hfine : ∀ err, ch ≠ .fail err := by
    rintro err rfl
    cases h
  have hpending : (Prog.call o κ : Magus Unit).pending = some o := rfl
  have hcall : ((!writing p o || guarded p owners c pid (k, .call o κ)) && (decide (Agree c.db p) || isMakeChild k)) = true := by
    cases ch with
    | fail err => exact absurd rfl (hfine err)
    | _ => simpa only [watched, ht, Option.all_some, hpending] using h
  simp only [Bool.and_eq_true, Bool.or_eq_true, Bool.not_eq_true', decide_eq_true_eq] at hcall
  refine ⟨fun hw => hcall.1.resolve_left ?_, hcall.2, hfine⟩
  rw [writing_of_writes p hw]
  exact Bool.false_ne_true.symm

theorem watched_careful (only : ∀ x k q, task c x = some (k, q) → x ∈ owners) (h : watched p owners c e = true) :
    Careful p c e := by
  have hother : (∀ pid ch, e ≠ .call pid ch) → Agree c.db p := fun hne => by
    cases e with
    | call pid ch => exact absurd rfl (hne pid ch)
    | signal | indexDepends => cases h
    | _ => exact of_decide_eq_true h
  have hover : ∀ {l : Lock}, ¬ Settled p l c.db → ¬ Agree c.db p := fun hnot hagree => hnot fun _ => hagree
  refine ⟨?_, ?_, ⟨?_, ?_, ?_⟩, ?_, ?_⟩
  · rintro pid ch k o κ l rfl ht hw hl
    exact (guarded_iff only ((watched_call ht h).1 hw)).1 l hl
  · rintro pid ch k o κ x k' q' rfl ht hw hne hx -
    exact (guarded_iff only ((watched_call ht h).1 hw)).2 x k' q' hne hx
  · intro db x l o κ r ht how hnot
    refine absurd (?_ : Agree c.db p) (hover hnot)
    cases how with
    | chosen ha => exact (watched_call ht h).2.1.resolve_right Bool.false_ne_true
    | _ => exact hother nofun
  · intro db x l o κ err ht how hnot
    cases how with
    | chosen ha =>
      obtain ⟨err, rfl⟩ := answer_fail ha
      exact absurd rfl ((watched_call ht h).2.2 err)
    | _ => exact absurd (hother nofun) (hover hnot)
  · rintro pid sig core l q rfl -
    cases h
  · rintro pid ch k o κ err db rfl ht - ha
    obtain ⟨err, rfl⟩ := answer_fail ha
    exact absurd rfl ((watched_call ht h).2.2 err)
  · rintro pid machine depends rfl
    cases h

end Watched

def fetchedDb : Db :=
  { freshDb with phaseRow := fun _ ph => some { PhaseRow.fresh 0 with status := if ph = .fetch then .pass else .untested } }

def builders : List Owner := [.inr 1, .inl 30, .inl 40]

theorem failed_agrees : ∃ h c, Run Cluster.Step (Cluster.start fetchedDb) h c ∧ c.db.phaseStatus 0 .build = some .fail ∧
    (c.db.status 0 = .fail ∨ c.db.status 0 = .untested ∧ Status.fail = .running) := by
  obtain ⟨h, c, run, hf⟩ := reached_of_history Cluster.next (s := Cluster.start fetchedDb)
    (w := taken 1 samplePort .build 30 ++ calls 30 7 ++ [.fork 30 40, .call 40 .done,
      .call 40 (.results { summary := .fail })] ++ calls 40 3 ++ [.exit 40, .waited 30] ++ calls 30 4 ++ released 30)
    (f := fun x => (x.1.all fun y => decide (∀ z ∈ births y.2, ∃ x ∈ builders, x = z) &&
        watched 0 builders y.1 y.2) &&
      decide (x.2.db.lock 0 .build = none) && decide (x.2.db.phaseStatus 0 .build = some .fail) &&
      builders.all fun z => (task x.2 z).isNone) (by decide +kernel)
  simp only [Bool.and_eq_true, List.all_eq_true, decide_eq_true_eq, Option.isNone_iff_eq_none] at hf
  obtain ⟨⟨⟨hall, hlock⟩, hfailed⟩, hgone⟩ := hf
  have only : ∀ {h' s}, Run Cluster.Step (Cluster.start fetchedDb) h' s → h' ⊆ h →
      ∀ x k q, task s x = some (k, q) → x ∈ builders := by
    intro h' s run' hsub x k q ht
    obtain ⟨y, hy, hx⟩ := born run' ht
    obtain ⟨z, hz, rfl⟩ := (hall y (hsub hy)).1 x hx
    exact hz
  have all : AllSteps (Careful 0) h := by
    rintro ⟨s, e⟩ hx
    obtain ⟨h', run', hsuffix⟩ := run.before hx
    exact watched_careful (only run' hsuffix.subset) (hall _ hx).2
  have quiet : Quiet 0 c := by
    refine ⟨hlock, fun x k q ht => ?_⟩
    rw [hgone x (only run (List.Subset.refl h) x k q ht)] at ht
    cases ht
  exact ⟨h, c, run, hfailed, results_agree (fun _ _ => rfl) (.inl rfl) run all quiet _ hfailed⟩

/-- The make child of a build has written the status of the port when it loses the
database. It exits with 0, and the lock goes with the build row still 'running'. -/
theorem lost_connection_splits : ∃ h c, Run Cluster.Step (Cluster.start freshDb) h c ∧
    c.db.lock 0 .build = none ∧ c.db.phaseStatus 0 .build = some .running ∧ c.db.status 0 = .fail := by
  obtain ⟨h, c, run, hf⟩ := reached_of_history Cluster.next (s := Cluster.start freshDb)
    (w := taken 1 samplePort .fetch 20 ++ calls 20 3 ++ taken 1 samplePort .build 30 ++ calls 30 7 ++
      [.fork 30 40, .call 40 .done, .call 40 (.results { summary := .fail }), .call 40 .done,
        .call 40 (.fail "DBI connection lost"), .exit 40, .waited 30] ++ calls 30 4 ++ released 30)
    (f := fun x => decide (x.2.db.lock 0 .build = none ∧ x.2.db.phaseStatus 0 .build = some .running ∧
      x.2.db.status 0 = .fail)) (by decide +kernel)
  exact ⟨h, c, run, of_decide_eq_true hf⟩

end Mports.MagusSettled
