import Mports.MagusTending

set_option autoImplicit false

namespace Mports.MagusAgreement
open MagusTables MagusStatements MagusPort MagusWorker MagusFootprint
open MagusEffects MagusTasks MagusOwnership MagusEndings MagusTending StatementPrograms

/-- The status of a port and, if there is one, that of its build row. -/
def pair (db : Db) (p : PortId) : Status × Option Status := (db.status p, db.phaseStatus p .build)

/-- The two say the same, or a build of the untested port has begun. A row that is missing
counts as 'untested', the status `phase_result` inserts it with. -/
def Agrees (x : Status × Option Status) : Prop :=
  x.1 = x.2.getD .untested ∨ x.1 = .untested ∧ x.2 = some .running

def Agree (db : Db) (p : PortId) : Prop := Agrees (pair db p)

def Clean (x : Status × Option Status) : Prop := x.2.getD .untested = .untested

def Restored (x : Status × Option Status) : Prop := x.1 = .untested ∧ Clean x

theorem agrees_restored {x : Status × Option Status} (h : Restored x) : Agrees x :=
  .inl (h.1.trans h.2.symm)

theorem agree_of_pair {db : Db} {p : PortId} {st : Status} (h : pair db p = (st, some st)) :
    Agree db p :=
  .inl (by rw [h]; rfl)

/-- A worker in `waitpid` leaves the port to its make child. -/
def Awake : Option Op → Prop
  | some .waitpid | some .waitpidAgain => False
  | _ => True

def Keeping (p : PortId) (Q : Status × Option Status → Prop) (o : Op) : Prop :=
  Awake (some o) ∧ NoDelete o ∧ ∀ s r u, Effect s o r u → Q (pair s p) → Q (pair u p)

section Effects
variable {s u : Db} {o : Op} {p : PortId} {Q : Status × Option Status → Prop}

theorem effect_pair {r : Except Exn o.Res} (h : Effect s o r u)
    (hw : ∀ st, o = .sql st → ¬ WritesStatus p st ∧ ¬ WritesRow p .build st) : pair u p = pair s p := by
  rcases h with ⟨ch, ha⟩ | ⟨rfl, _⟩
  · have hstatus : u.status p = s.status p := answer_status ha fun st hst => (hw st hst).1
    have hrow : u.phaseRow p .build = s.phaseRow p .build :=
      answer_phaseRow ha fun st hst => (hw st hst).2
    rw [pair, pair, Db.phaseStatus, Db.phaseStatus, hstatus, hrow]
  · rfl

theorem untouched (ho : Awake (some o)) (hd : NoDelete o)
    (hw : ∀ st, o = .sql st → ¬ WritesStatus p st ∧ ¬ WritesRow p .build st) : Keeping p Q o :=
  ⟨ho, hd, fun _ _ _ h hs => effect_pair h hw ▸ hs⟩

theorem ext_keeping (x : External) : Keeping p Q (.ext x) :=
  untouched trivial (by simp [NoDelete]) (by simp)

theorem stmt_keeping {st : Stmt} (hd : NoDelete (.sql st)) (hs : ¬ WritesStatus p st)
    (hr : ¬ WritesRow p .build st) : Keeping p Q (.sql st) := by
  refine untouched trivial hd ?_
  rintro _ ⟨rfl⟩
  exact ⟨hs, hr⟩

theorem insertPhaseResult_keeping (hQ : ∀ a, Q (a, none) → Q (a, some .untested)) (q : PortId)
    (ph : Phase) : Keeping p Q (.sql (.insertPhaseResult q ph)) := by
  by_cases hrow : q = p ∧ ph = .build
  · obtain ⟨rfl, rfl⟩ := hrow
    refine ⟨trivial, by simp [NoDelete], fun s r u h hs => ?_⟩
    cases r with
    | error e => rwa [h.error]
    | ok x =>
      have hexec := effect_exec h
      simp only [Stmt.exec, Option.ite_none_right_eq_some, Option.some.injEq, Prod.mk.injEq] at hexec
      obtain ⟨hnone, _, rfl⟩ := hexec
      have hbefore : pair s q = (s.status q, none) := by simp [pair, Db.phaseStatus, hnone]
      rw [hbefore] at hs
      simpa [pair, Db.phaseStatus, PhaseRow.fresh] using hQ _ hs
  · exact stmt_keeping (by simp [NoDelete]) id hrow

theorem updatePhaseResult_pair {st : Status} {machine : Option MachineId} {x : Unit}
    (h : Effect s (.sql (.updatePhaseResult p .build st machine)) (.ok x) u) :
    pair u p = (s.status p, (s.phaseStatus p .build).map fun _ => st) := by
  cases effect_exec h
  simp only [pair, Db.phaseStatus, put_same, Option.map_map]
  rfl

theorem clean_map (a : Status) (b : Option Status) : Clean (a, b.map fun _ => .untested) := by
  cases b <;> rfl

theorem clean_unread (h : ∀ st, s.phaseStatus p .build = some st → Phase.build = .fetch ∧ st = .pass) :
    Clean (pair s p) := by
  cases hrow : s.phaseStatus p .build with
  | none => simp [Clean, pair, hrow]
  | some st => cases (h st hrow).1

theorem updatePhaseResult_clean (q : PortId) (ph : Phase) (machine : Option MachineId) :
    Keeping p Clean (.sql (.updatePhaseResult q ph .untested machine)) := by
  by_cases hrow : q = p ∧ ph = .build
  · obtain ⟨rfl, rfl⟩ := hrow
    refine ⟨trivial, by simp [NoDelete], fun s r u h hs => ?_⟩
    cases r with
    | error e => rwa [h.error]
    | ok x =>
      rw [updatePhaseResult_pair h]
      exact clean_map _ _
  · exact stmt_keeping (by simp [NoDelete]) id hrow

theorem updateStatus_pair {st : Status} {x : Unit} (h : Effect s (.sql (.updateStatus p st)) (.ok x) u) :
    pair u p = (st, s.phaseStatus p .build) := by
  cases effect_exec h
  simp [pair, Db.phaseStatus]

end Effects

/-- A setting in which nobody else writes either place while `G` holds. -/
structure Undisputed {σ : Type} (E : Setting magus σ) (get : σ → Db) (p : PortId) (G : Db → Prop) :
    Prop where
  stable : ∀ {o s t} {Q : Status × Option Status → Prop}, Awake o → E.rely o s t →
    (G (get s) → Q (pair (get s) p)) → G (get t) → Q (pair (get t) p)
  effect : ∀ {s o r u}, E.answers s o r u → Effect (get s) o r (get u)
  guard : ∀ {s o r u}, Effect s o r u → G u → G s

section Programs
variable {σ : Type} {E : Setting magus σ} {get : σ → Db} {p : PortId} {G : Db → Prop}
  {Q : Status × Option Status → Prop} {R : Exn → σ → Prop} {C : Fin 256 → σ → Prop}

theorem Undisputed.steady (h : Undisputed E get p G) (Q : Status × Option Status → Prop) :
    Steady E get (fun db => G db → Q (pair db p)) (Keeping p Q) where
  stable := by
    intro o s t ho
    refine h.stable ?_
    cases o with
    | none => trivial
    | some x =>
      rcases ho x rfl with hx | ⟨st, rfl⟩
      · exact hx.1
      · trivial
  effect := h.effect
  keeps := fun hr ho hs hu => ho.2.2 _ _ _ hr (hs (h.guard hr hu))
  mild := fun ho => ho.2.1

theorem noteEvent_keeping (machine : MachineId) (q : PortId) (type msg : String) (ph : Phase)
    (name : String) {A : (o : Op) → Except Exn o.Res → Prop} :
    Uses (S := magus) (Keeping p Q) A (noteEvent machine q type msg ph name) :=
  Uses.issue (stmt_keeping (by simp [NoDelete]) id id)

section Writers
variable (relays : Relays E R)
include relays

theorem setPhaseStatus_publishes (h : Undisputed E get p G) {machine : MachineId}
    {st : Status} {s : σ} (hs : G (get s) → (pair (get s) p).1 = st) :
    Outline E (Ends (fun _ t => G (get t) → pair (get t) p = (st, some st)) R C)
      (setPhaseStatus machine p .build st) s := by
  have marked := h.steady fun x => x.1 = st
  have ready := h.steady fun x => x.1 = st ∧ x.2 ≠ none
  have final := h.steady fun x => x = (st, some st)
  refine Outline.seq (Q := fun _ t => G (get t) → (pair (get t) p).1 = st ∧ (pair (get t) p).2 ≠ none)
    ?_ fun _ t ht => ?_
  · refine Outline.seq (Q := fun rows t => G (get t) → (pair (get t) p).1 = st ∧
        ((rows.find? fun row => row.1 = .build) ≠ none → (pair (get t) p).2 ≠ none))
      (Outline.issue fun t ht => ⟨relays.free (by simp [NoDelete]), fun rows u hr v hv => ?_,
        fun _ _ hr _ hv => relays.raises hr hv⟩) fun rows t ht => ?_
    · refine (h.steady fun x => x.1 = st ∧
        ((rows.find? fun row => row.1 = .build) ≠ none → x.2 ≠ none)).stable (by simp) hv ?_
      obtain ⟨rfl, hsame⟩ := Prod.mk.inj (Option.some.inj (effect_exec (h.effect hr)))
      rw [← hsame, find_phaseResults]
      refine fun hG => ⟨marked.stable (by simp) ht hs hG, ?_⟩
      simp [pair]
    · split
      · rename_i row hrow
        exact fun u hu => ready.stable (by simp) hu fun hG => ⟨(ht hG).1, (ht hG).2 (by simp [hrow])⟩
      · refine Outline.seq (Q := fun _ t => G (get t) → (pair (get t) p).1 = st ∧
          (pair (get t) p).2 ≠ none) (Outline.issue fun u hu => ⟨relays.free (by simp [NoDelete]),
            fun x v hr w hw => ready.stable (by simp) hw fun hG => ?_,
            fun _ _ hr _ hv => relays.raises hr hv⟩) fun _ t ht u hu => ready.stable (by simp) hu ht
        have hmark : (pair (get v) p).1 = st := by
          have hkeep := (insertPhaseResult_keeping (p := p) (Q := fun x => x.1 = st) (fun _ h => h) p
            .build).2.2 _ _ _ (h.effect hr)
          exact hkeep (marked.stable (by simp) hu (fun hG => (ht hG).1) (h.guard (h.effect hr) hG))
        refine ⟨hmark, ?_⟩
        have hexec := effect_exec (h.effect hr)
        simp only [Stmt.exec, Option.ite_none_right_eq_some, Option.some.injEq, Prod.mk.injEq] at hexec
        simp [← hexec.2.2, pair, Db.phaseStatus]
  · refine Outline.issue fun u hu => ⟨relays.free (by simp [NoDelete]), fun x v hr w hw =>
      final.stable (by simp) hw fun hG => ?_, fun _ _ hr _ hv => relays.raises hr hv⟩
    obtain ⟨hst, hrow⟩ := ready.stable (by simp) hu ht (h.guard (h.effect hr) hG)
    rw [updatePhaseResult_pair (h.effect hr)]
    obtain ⟨st', hst'⟩ := Option.ne_none_iff_exists'.1 hrow
    have hsome : (get u).phaseStatus p .build = some st' := hst'
    have hstatus : (get u).status p = st := hst
    simp [hsome, hstatus]

theorem updateStatus_marks (h : Undisputed E get p G) (st : Status) (s : σ) :
    Outline E (Ends (fun _ t => G (get t) → (pair (get t) p).1 = st) R C)
      (sql (.updateStatus p st)) s :=
  (h.steady fun x => x.1 = st).makes relays (by simp [NoDelete]) (fun hr _ => by rw [updateStatus_pair hr]) s

theorem setResult_publishes (h : Undisputed E get p G) (machine : MachineId)
    (st : Status) (msg type : String) (s : σ) :
    Outline E (Ends (fun _ t => G (get t) → Agree (get t) p) R C) (setResult machine p st msg type) s := by
  refine (updateStatus_marks relays h st s).seq fun _ s hs => ?_
  refine (setPhaseStatus_publishes relays h hs).seq fun _ s hs => ?_
  refine ((h.steady Agrees).statement relays (stmt_keeping (by simp [NoDelete]) id id)
    fun hG => agree_of_pair (hs hG))

theorem recordException_publishes (h : Undisputed E get p G) {l : Lock}
    (hl : l.phase = .build) (hp : l.port.id = p) (error : Exn) (s : σ) :
    Outline E (Ends (fun _ t => G (get t) → Agree (get t) p) R C) (recordException l error) s := by
  subst hp
  unfold recordException
  rw [if_pos hl]
  exact setResult_publishes relays h l.machine .internal ("Exception thrown: " ++ error) "internal" s

theorem reset_restores (h : Undisputed E get p G) (s : σ) :
    Outline E (Ends (fun _ t => G (get t) → Restored (pair (get t) p)) R C) (reset p) s := by
  have clean := h.steady Clean
  refine (relays.resetLogs p s).seq fun _ s _ => Outline.seq
    (Q := fun _ t => G (get t) → Clean (pair (get t) p)) (clean.resetRows relays .build
      (fun hread _ => clean_unread hread) (fun hr _ => updatePhaseResult_pair hr ▸ clean_map _ _)
      (fun ph => updatePhaseResult_clean p ph none) s) fun _ s hs => ?_
  · refine Outline.issue fun t ht => ⟨relays.free (by simp [NoDelete]), fun _ u hr v hv =>
      (h.steady Restored).stable (by simp) hv fun hG => ?_, fun _ _ hr _ hv => relays.raises hr hv⟩
    rw [updateStatus_pair (h.effect hr)]
    exact ⟨rfl, clean.stable (by simp) ht hs (h.guard (h.effect hr) hG)⟩

theorem reset_agrees (h : Undisputed E get p G) (s : σ) :
    Outline E (Ends (fun _ t => G (get t) → Agree (get t) p) R C) (reset p) s :=
  (reset_restores relays h s).returns fun _ _ ht hG => agrees_restored (ht hG)

end Writers
end Programs

section Locks
variable (p : PortId) (l : Lock)

def Open (db : Db) : Prop := l.phase = .build ∧ l.port.id = p ∧ db.Locked l

def Settled (db : Db) : Prop := Open p l db → Agree db p

/-- What no other process takes back while the lock is there: anything about the two
places, unless the worker waits, and the ports of the tree. -/
def Kept (o : Option Op) (P : Db → Prop) : Prop :=
  (Awake o ∧ ∃ Q : Status × Option Status → Prop, P = fun db => Open p l db → Q (pair db p)) ∨
    ∃ row, P = fun db => row ∈ db.tree.ports

variable {p l}

theorem settled_else (h : ¬ (l.phase = .build ∧ l.port.id = p)) (db : Db) : Settled p l db :=
  fun hopen => absurd ⟨hopen.1, hopen.2.1⟩ h

theorem open_before {s u : Db} {o : Op} {r : Except Exn o.Res} (h : Effect s o r u) (hu : Open p l u) :
    Open p l s :=
  ⟨hu.1, hu.2.1, h.locked_before hu.2.2⟩

theorem keeping_undisputed {A : Db → (o : Op) → Except Exn o.Res → Db → Prop} {N : Db → Op → Prop}
    (hA : ∀ {s o r u}, A s o r u → Effect s o r u) :
    Undisputed (.keeping (Kept p l) A N) id p (Open p l) where
  stable := fun ho hst hs => hst _ (.inl ⟨ho, _, rfl⟩) hs
  effect := hA
  guard := open_before

theorem noting_undisputed (hurts : Db → Prop) :
    Undisputed (notingSetting (Kept p l) hurts) Prod.fst p (Open p l) where
  stable := fun ho hst hs => hst.2 _ (.inl ⟨ho, _, rfl⟩) hs
  effect := fun hr => hr.1
  guard := open_before

theorem worker_overseen :
    Overseen (workerSetting (Kept p l) (Settled p l) l) l (Settled p l) (Keeping p Agrees) where
  toSteady := (keeping_undisputed WorkerAnswer.effect).steady Agrees
  ports := fun hst hs => hst _ (.inr ⟨_, rfl⟩) hs
  answers := id
  needs := fun _ _ => trivial
  ext := ext_keeping
  reads := fun q => ⟨stmt_keeping (by simp [NoDelete]) id id, stmt_keeping (by simp [NoDelete]) id id,
    stmt_keeping (by simp [NoDelete]) id id⟩
  notes := fun _ _ _ _ _ _ => stmt_keeping (by simp [NoDelete]) id id
  rows := insertPhaseResult_keeping (fun a h => by simpa [Agrees] using h) _ _

/-- Whatever the worker of a build meets, it ends with exit code 6 or with the two places
in agreement. -/
theorem run_settles (s : Db) :
    Outline (workerSetting (Kept p l) (Settled p l) l) (workerPost (Settled p l)) (run l) s := by
  by_cases hat : l.phase = .build ∧ l.port.id = p
  swap
  · refine Outline.trivial (fun _ _ => trivial) (fun x t => ?_) _ _
    cases x with
    | exit => exact .inr (settled_else hat t)
    | _ => exact settled_else hat t
  obtain ⟨hph, hp⟩ := hat
  have h := worker_overseen (p := p) (l := l)
  have hund : Undisputed (workerSetting (Kept p l) (Settled p l) l) id p (Open p l) :=
    keeping_undisputed WorkerAnswer.effect
  have hstmt : ∀ {st : Stmt}, NoDelete (.sql st) → ¬ WritesStatus p st → ¬ WritesRow p .build st →
      Keeping p Agrees (.sql st) := stmt_keeping
  have hreset : ∀ s, Finishes (workerSetting (Kept p l) (Settled p l) l) (Settled p l)
      (reset l.port.id) s := by
    intro s
    rw [hp]
    exact reset_agrees h.watched.toRelays hund s
  refine h.run (fun hr hnot hopen => ?_)
    (recordException_publishes h.recording.toRelays hund hph hp) (fun s => ?_) s
  · obtain ⟨hfound, rfl⟩ := Prod.mk.inj (Option.some.inj (effect_exec hr.effect))
    exact absurd hopen.2.2 (of_decide_eq_false (hfound.trans hnot))
  · unfold runPhase
    rw [hph]
    refine (h.ext_goes _ s).seq fun _ s _ => (h.injectDepends (by simp [hph]) s).seq fun _ s _ => ?_
    refine (h.distfiles s).1.seq fun _ s _ => (h.runMakePhase hreset s).seq fun _ s hs =>
      h.watched.finished (Uses.bind (Uses.issue (hstmt (by simp [NoDelete]) id id)) fun _ =>
        Uses.when fun _ => Uses.bind (scp_uses (ext_keeping _)) fun _ => ?_) hs
    exact Uses.bind (Uses.issue (hstmt (by simp [NoDelete]) id id)) fun _ =>
      Uses.forEach fun _ _ => Uses.issue (ext_keeping _)

theorem insertResults_publishes (hph : l.phase = .build) (hp : l.port.id = p) (results : Results)
    (s : Db × Prop) : Outline (childSetting (Kept p l) (Settled p l))
      (Ends (fun _ t => Settled p l t.1) (fun _ => Told (Settled p l)) fun _ => Told (Settled p l))
      (insertResults l results) s := by
  have hund : Undisputed (childSetting (Kept p l) (Settled p l)) Prod.fst p (Open p l) :=
    noting_undisputed _
  have h := child_watched (hund.steady Agrees)
  have hstmt : ∀ {st : Stmt}, NoDelete (.sql st) → ¬ WritesStatus p st → ¬ WritesRow p .build st →
      Keeping p Agrees (.sql st) := stmt_keeping
  unfold insertResults
  rw [hph, hp]
  refine Outline.seq (Outline.when (fun _ => updateStatus_marks h.toRelays hund _ s) fun hno =>
    absurd rfl hno) fun _ s hs => ?_
  refine (setPhaseStatus_publishes h.toRelays hund hs).seq fun _ s hs =>
    h.finished ?_ fun hG => agree_of_pair (hs hG)
  refine Uses.bind (Uses.forEach fun _ _ => noteEvent_keeping ..) fun _ => ?_
  refine Uses.bind (Uses.forEach fun _ _ => noteEvent_keeping ..) fun _ => ?_
  refine Uses.bind (Uses.forEach fun _ _ => noteEvent_keeping ..) fun _ => ?_
  cases results.log with
  | none => exact Uses.pure _
  | some data =>
    refine Uses.bind (Uses.bind (Uses.issue (hstmt (by simp [NoDelete]) id id)) fun _ =>
      Uses.issue (hstmt (by simp [NoDelete]) id id)) fun _ => Uses.when fun _ => ?_
    exact Uses.bind (Uses.issue (hstmt (by simp [NoDelete]) id id)) fun _ =>
      Uses.issue (hstmt (by simp [NoDelete]) id id)

theorem makeChild_settles (s : Db × Prop) : Outline (childSetting (Kept p l) (Settled p l))
    (fun _ => Told (Settled p l)) (makeChild l) s := by
  by_cases hat : l.phase = .build ∧ l.port.id = p
  · have hund : Undisputed (childSetting (Kept p l) (Settled p l)) Prod.fst p (Open p l) :=
      noting_undisputed _
    have h : Steady (childSetting (Kept p l) (Settled p l)) Prod.fst (Settled p l) (Keeping p Agrees) :=
      hund.steady Agrees
    exact makeChild_told h (insertResults_publishes hat.1 hat.2)
      (recordException_publishes (child_watched h).toRelays hund hat.1 hat.2) s
  · exact Outline.trivial (fun _ _ => trivial) (fun _ t => .inr (settled_else hat t.1)) _ _

theorem deleteLock_settled {s u : Db} {r : Except Exn Unit} (h : Effect s (.sql (.deleteLock l)) r u)
    (hs : Settled p l s) : Settled p l u := by
  intro hu
  have hsame : pair u p = pair s p := effect_pair h (by
    rintro _ ⟨rfl⟩
    exact ⟨id, id⟩)
  have hagree := hs (open_before h hu)
  rwa [Agree, ← hsame] at hagree

theorem processDeadChild_settles (code : ℕ) (s : Db) (hs : code = 6 ∨ Settled p l s) :
    Outline (burialSetting (Kept p l) (Settled p l) l code) (Buried (Settled p l) code)
      (processDeadChild l code) s := by
  by_cases hat : l.phase = .build ∧ l.port.id = p
  · have hund : Undisputed (burialSetting (Kept p l) (Settled p l) l code) id p (Open p l) :=
      keeping_undisputed id
    have h : Steady (burialSetting (Kept p l) (Settled p l) l code) id (Settled p l)
      (Keeping p Agrees) := hund.steady Agrees
    refine processDeadChild_buried h deleteLock_settled (fun hcode s => ?_) hs
    rw [if_pos hat.1, hat.2]
    exact reset_agrees (burial_watched h hcode).toRelays hund s
  · have hover := settled_else hat
    exact Outline.trivial (E := burialSetting (Kept p l) (Settled p l) l code)
      (fun t _ => ⟨.inr (hover t), fun _ => hover t⟩) (fun _ t => .inr (hover t)) _ _

theorem killLock_settles (s : Db) :
    Outline (killerSetting (Kept p l) (Settled p l) l) (fun _ _ => True) (killLock l) s := by
  by_cases hat : l.phase = .build ∧ l.port.id = p
  · have hund : Undisputed (killerSetting (Kept p l) (Settled p l) l) id p (Open p l) :=
      keeping_undisputed id
    have h : Steady (killerSetting (Kept p l) (Settled p l) l) id (Settled p l) (Keeping p Agrees) :=
      hund.steady Agrees
    refine killLock_buried h fun s => ?_
    rw [hat.2]
    exact reset_agrees (killer_watched h).toRelays hund s
  · exact Outline.trivial (E := killerSetting (Kept p l) (Settled p l) l)
      (fun t _ _ => settled_else hat t) (fun _ _ => trivial) _ _

end Locks

theorem programs (p : PortId) : Programs (Kept p) (Settled p) where
  settled := fun _ => .inl ⟨trivial, Agrees, rfl⟩
  run := fun _ => run_settles
  makeChild := fun _ => makeChild_settles
  processDeadChild := fun _ => processDeadChild_settles
  killLock := fun _ => killLock_settles

section Outside
variable {p : PortId}

/-- The setting of a process that works on the port without a lock, while nobody else does. -/
def outsideSetting (p : PortId) : Setting magus (Db × Prop) :=
  childSetting (fun _ P => ∃ Q : Status × Option Status → Prop, P = fun db => Q (pair db p)) (Agree · p)

theorem outside_undisputed : Undisputed (outsideSetting p) Prod.fst p fun _ => True where
  stable := fun _ hst hs _ => hst.2 _ ⟨_, rfl⟩ (hs trivial)
  effect := fun hr => hr.1
  guard := fun _ _ => trivial

theorem outside_watched : Watched (outsideSetting p) Prod.fst (Agree · p) (Keeping p Agrees)
    (fun _ => Told (Agree · p)) fun _ => Told (Agree · p) :=
  child_watched {
    stable := fun ho hst hs => (outside_undisputed.steady Agrees).stable ho hst (fun _ => hs) trivial
    effect := fun hr => hr.1
    keeps := fun hr ho hs => ho.2.2 _ _ _ hr hs
    mild := fun ho => ho.2.1 }

abbrev Concludes (p : PortId) (q : Magus Unit) (s : Db × Prop) : Prop :=
  Outline (outsideSetting p) (Ends (fun _ t => Agree t.1 p) (fun _ => Told (Agree · p))
    fun _ => Told (Agree · p)) q s

theorem reset_concludes (s : Db × Prop) : Concludes p (reset p) s :=
  (reset_agrees outside_watched.toRelays outside_undisputed s).returns fun _ _ ht => ht trivial

theorem setResult_concludes (machine : MachineId) (st : Status) (msg type : String) (s : Db × Prop) :
    Concludes p (setResult machine p st msg type) s :=
  (setResult_publishes outside_watched.toRelays outside_undisputed machine st msg type s).returns
    fun _ _ ht => ht trivial

section Index
variable {s : Db × Prop}

theorem keeps_concludes {q : Magus Unit} (hq : Uses (S := magus) (Keeping p Agrees) (fun _ _ => True) q)
    (hs : Agree s.1 p) : Concludes p q s :=
  outside_watched.finished hq hs

theorem phaseResult_keeping (ph : Phase) : Uses (S := magus) (Keeping p Agrees) (fun _ _ => True)
    (phaseResult p ph) :=
  phaseResult_uses (stmt_keeping (by simp [NoDelete]) id id)
    (insertPhaseResult_keeping (fun a h => by simpa [Agrees] using h) _ _)

theorem insertPort_agrees {s u : Db} {row : PortRow} {x : Unit}
    (h : Effect s (.sql (.insertPort row)) (.ok x) u) : Agree u row.id := by
  obtain ⟨T, _, hT⟩ := Option.map_eq_some_iff.1 (effect_exec h)
  cases hT
  simp [Agree, Agrees, pair, Db.phaseStatus]

theorem indexPort_concludes (machine : MachineId) (row : PortRow) (ignore : Option String)
    (s : Db × Prop) : Concludes row.id (indexPort machine row ignore) s := by
  refine (outside_watched.makes outside_watched.toRelays (by simp [NoDelete]) insertPort_agrees s).seq
    fun _ s hs => ?_
  refine (keeps_concludes (Uses.forEach fun ph _ => Uses.bind (phaseResult_keeping ph) fun _ =>
    Uses.pure _) hs).seq fun _ s hs => ?_
  cases ignore with
  | none => exact keeps_concludes (Uses.pure _) hs
  | some msg =>
    refine (setResult_concludes machine .skip msg "skip" s).seq fun _ s hs => keeps_concludes ?_ hs
    refine Uses.forEach fun ph hph => Uses.bind (phaseResult_keeping ph) fun _ => Uses.issue ?_
    have hne : ph ≠ .build := by simpa using (List.mem_filter.1 hph).2
    exact stmt_keeping (by simp [NoDelete]) id fun hrow => hne hrow.2

theorem indexDepends_concludes (machine : MachineId) (depends : List (Except String (PortId × String)))
    (hs : Agree s.1 p) : Concludes p (indexDepends machine p depends) s := by
  induction depends generalizing s with
  | nil => exact keeps_concludes (Uses.pure _) hs
  | cons d rest ih =>
    rcases d with missing | ⟨dependency, type⟩
    · exact setResult_concludes machine .fail missing "fail" s
    · exact (keeps_concludes (Uses.issue (stmt_keeping (by simp [NoDelete]) id id)) hs).seq
        fun _ _ ht => ih ht

end Index
end Outside

end Mports.MagusAgreement
