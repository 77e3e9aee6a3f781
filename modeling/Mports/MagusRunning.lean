import Mports.MagusTending

set_option autoImplicit false

namespace Mports.MagusRunning
open MagusTables MagusStatements MagusPort MagusScan MagusWorker MagusFootprint
open MagusEffects MagusTasks MagusOwnership MagusEndings MagusTending StatementPrograms

/-- The phase of the lock is 'running' while the row of the lock is there. -/
def Unfinished (db : Db) (l : Lock) : Prop :=
  l.phase ≠ .build ∧ db.Locked l ∧ db.phaseStatus l.port.id l.phase = some .running

def Starts : Op → Prop
  | .sql (.updatePhaseResult _ _ .running _) | .sql (.updateResultStatus _ _ .running) => True
  | _ => False

def Mild (o : Op) : Prop := ¬ Starts o ∧ NoDelete o

def Begun (q : Magus Unit) : Prop := Uses (S := magus) Mild (fun _ _ => True) q

theorem Begun.answer {o : Op} {κ : Except Exn o.Res → Magus Unit} (h : Begun (.call o κ))
    (r : Except Exn o.Res) : Begun (κ r) :=
  h.2 r trivial

section Rows
variable {s u : Db} {o : Op} {l : Lock}

theorem exec_starts {st : Stmt} {x : st.Res} (h : st.exec s = some (x, u)) {p : PortId} {ph : Phase}
    (hno : s.phaseStatus p ph ≠ some .running) (hyes : u.phaseStatus p ph = some .running) :
    Starts (.sql st) ∧ WritesRow p ph st := by
  have hw : WritesRow p ph st := by
    by_contra hw
    exact hno (by rwa [Db.phaseStatus, ← exec_phaseRow h hw])
  refine ⟨?_, hw⟩
  cases st with
  | insertPhaseResult q qh =>
    simp only [Stmt.exec, Option.ite_none_right_eq_some] at h
    obtain ⟨rfl, rfl⟩ := hw
    cases h.2
    simp [Db.phaseStatus, PhaseRow.fresh] at hyes
  | updatePhaseResult q qh st machine =>
    obtain ⟨rfl, rfl⟩ := hw
    cases h
    obtain ⟨row, hrow, rfl⟩ : ∃ row, s.phaseRow q qh = some row ∧ st = .running := by
      simpa [Db.phaseStatus, Stmt.updatedRow] using hyes
    trivial
  | updateResultStatus q qh st =>
    obtain ⟨rfl, rfl⟩ := hw
    cases h
    obtain ⟨row, hrow, rfl⟩ : ∃ row, s.phaseRow q qh = some row ∧ st = .running := by
      simpa [Db.phaseStatus] using hyes
    trivial
  | insertPort row =>
    obtain ⟨T, _, hT⟩ := Option.map_eq_some_iff.1 h
    cases hT
    cases hw
    simp [Db.phaseStatus] at hyes
  | _ => cases hw

theorem answer_starts {ch : Choice} {r : Except Exn o.Res} (h : answer s o ch = some (r, u))
    {p : PortId} {ph : Phase} (hno : s.phaseStatus p ph ≠ some .running)
    (hyes : u.phaseStatus p ph = some .running) :
    Starts o ∧ ∃ st, o = .sql st ∧ WritesRow p ph st := by
  rcases answer_cases h with rfl | ⟨st, x, rfl, hx⟩ | ⟨row, _, rfl⟩
  · exact absurd hyes hno
  · obtain ⟨hs, hw⟩ := exec_starts hx hno hyes
    exact ⟨hs, st, rfl, hw⟩
  · exact absurd hyes hno

theorem effect_finished {r : Except Exn o.Res} (h : Effect s o r u) (ho : ¬ Starts o)
    (hs : ¬ Unfinished s l) : ¬ Unfinished u l := by
  rintro ⟨hph, hlocked, hrunning⟩
  refine hs ⟨hph, h.locked_before hlocked, ?_⟩
  by_contra hno
  rcases h with ⟨ch, ha⟩ | ⟨rfl, _⟩
  · exact ho (answer_starts ha hno hrunning).1
  · exact hno hrunning

theorem effect_updatePhaseResult {p : PortId} {ph : Phase} {st : Status} {machine : Option MachineId}
    {x : Unit} (h : Effect s (.sql (.updatePhaseResult p ph st machine)) (.ok x) u) :
    u.phaseStatus p ph = (s.phaseStatus p ph).map fun _ => st := by
  cases effect_exec h
  simp only [Db.phaseStatus, put_same, Option.map_map]
  rfl

theorem own_starts {ok : Status → Prop} {st : Stmt} (h : OwnStmt l ok st) (hs : Starts (.sql st)) :
    ok .running ∧ ∃ machine, st = .updatePhaseResult l.port.id l.phase .running machine := by
  unfold Starts at hs
  split at hs
  · rename_i p ph machine he
    cases he
    obtain ⟨rfl, rfl, hok⟩ := h
    exact ⟨hok, machine, rfl⟩
  · rename_i he
    cases he
    exact h.elim
  · exact hs.elim

theorem reset_starts {p : PortId} {st : Stmt} (h : ResetStmt p st) : ¬ Starts (.sql st) := by
  intro hs
  unfold Starts at hs
  split at hs
  · rename_i he
    cases he
    cases h.2
  · rename_i he
    cases he
    exact h
  · exact hs

theorem index_starts {p : PortId} {st : Stmt} (h : IndexStmt p st) : ¬ Starts (.sql st) := by
  intro hs
  unfold Starts at hs
  split at hs
  · rename_i he
    cases he
    rcases h.2.2 with h | h <;> cases h
  · rename_i he
    cases he
    cases h.2.2
  · exact hs

theorem ownStmt_mild {st : Stmt} (h : OwnStmt l Final st) : Mild (.sql st) :=
  ⟨fun hs => (own_starts h hs).1.2 rfl, own_noDelete h⟩

theorem resetStmt_mild {p : PortId} {st : Stmt} (h : ResetStmt p st) : Mild (.sql st) :=
  ⟨reset_starts h, reset_noDelete h⟩

theorem noteEvent_mild {A : (o : Op) → Except Exn o.Res → Prop} (machine : MachineId) (p : PortId)
    (type msg : String) (ph : Phase) (name : String) :
    Uses (S := magus) Mild A (noteEvent machine p type msg ph name) :=
  Uses.issue ⟨id, by simp [NoDelete]⟩

theorem ext_mild (x : External) : Mild (.ext x) := ⟨id, by simp [NoDelete]⟩

theorem phaseOp_mild {handled : Prop} (h : PhaseOp handled l o) : Mild o := by
  rcases h with h | ⟨_, h⟩
  · cases o with
    | sql st => exact ownStmt_mild h
    | _ => exact ⟨id, by simp [NoDelete]⟩
  · cases o with
    | sql st => exact resetStmt_mild h
    | _ => cases h

end Rows

theorem afterException_begun (l : Lock) (error : Exn) : Begun (afterException l error) := by
  refine Uses.ite (fun _ => Uses.exit _) fun _ => Uses.ite (fun _ => Uses.pure _) fun _ => ?_
  refine Uses.tryCatch (recordException_uses l error (K := Final) ⟨by decide, by decide⟩
    fun _ hs => ownStmt_mild hs) fun _ => ?_
  exact Uses.ite (fun _ => Uses.exit _) fun _ => Uses.pure _

theorem afterStart_begun (l : Lock) : Begun (do
    noteEvent l.machine l.port.id "info" (l.phase.title ++ " Started") l.phase "PhaseStarted"
    runPhase l
    let st ← phaseStatus l.port.id l.phase
    noteEvent l.machine l.port.id st.text (l.phase.title ++ " complete.") l.phase "PhaseComplete") := by
  have hphase : Uses (S := magus) Mild (fun _ _ => True) (runPhase l) :=
    ((@runPhase_uses l True).mono fun _ => phaseOp_mild).weaken fun _ _ _ _ => trivial
  refine Uses.bind (noteEvent_mild ..) fun _ => Uses.bind hphase fun _ => Uses.bind ?_ fun _ =>
    noteEvent_mild ..
  exact phaseResult_uses ⟨id, by simp [NoDelete]⟩ ⟨id, by simp [NoDelete]⟩

/-- What is kept of a phase and its lock once the phase is finished. -/
abbrev Finished (l : Lock) (db : Db) : Prop := ¬ Unfinished db l

def Kept (l : Lock) (_ : Option Op) (P : Db → Prop) : Prop :=
  P = Finished l ∨ ∃ row, P = fun db => row ∈ db.tree.ports

section Programs
variable {σ : Type} {E : Setting magus σ} {get : σ → Db} {l : Lock} {R : Exn → σ → Prop}
  {C : Fin 256 → σ → Prop}

theorem finished_steady
    (stable : ∀ {o s t}, E.rely o s t → Finished l (get s) → Finished l (get t))
    (effect : ∀ {s o r u}, E.answers s o r u → Effect (get s) o r (get u)) :
    Steady E get (Finished l) Mild where
  stable := fun _ => stable
  effect := effect
  keeps := fun hr ho => effect_finished hr ho.1
  mild := fun ho => ho.2

theorem finished_updated {st : Status} {machine : Option MachineId} (hst : st ≠ .running)
    {s u : Db} {x : Unit}
    (h : Effect s (.sql (.updatePhaseResult l.port.id l.phase st machine)) (.ok x) u) :
    Finished l u := by
  rintro ⟨_, _, hrunning⟩
  rw [effect_updatePhaseResult h] at hrunning
  obtain ⟨_, _, he⟩ := Option.map_eq_some_iff.1 hrunning
  exact hst he

section Watched
variable (h : Watched E get (Finished l) Mild R C)
include h

theorem setPhaseStatus_finishes {st : Status} (hst : st ≠ .running) (s : σ) :
    Outline E (Ends (fun _ t => Finished l (get t)) R C)
      (setPhaseStatus l.machine l.port.id l.phase st) s :=
  (h.phaseResult _ _ s).seq fun _ t _ => h.makes h.toRelays (by simp [NoDelete])
    (finished_updated hst) t

theorem reset_finishes (s : σ) :
    Outline E (Ends (fun _ t => Finished l (get t)) R C) (reset l.port.id) s := by
  have hrows : ∀ ph, Mild (.sql (.updatePhaseResult l.port.id ph .untested none)) :=
    fun ph => resetStmt_mild (p := l.port.id) ⟨rfl, rfl⟩
  have hstatus : Mild (.sql (.updateStatus l.port.id .untested)) :=
    resetStmt_mild (p := l.port.id) ⟨rfl, rfl⟩
  refine (h.resetLogs _ s).seq fun _ s _ => Outline.seq (Q := fun _ t => Finished l (get t))
    (h.resetRows h.toRelays _ (fun hread hu => ?_) (finished_updated (by decide)) hrows s)
    fun _ _ hs => h.finished (Uses.issue hstatus) hs
  cases (hread _ hu.2.2).2

theorem recordException_finishes (hph : l.phase ≠ .build) (error : Exn) (s : σ) :
    Outline E (Ends (fun _ t => Finished l (get t)) R C) (recordException l error) s := by
  unfold recordException
  rw [if_neg hph]
  exact (setPhaseStatus_finishes h (by decide) s).seq fun _ _ hs => h.finished (noteEvent_mild ..) hs

end Watched

theorem worker_overseen (l : Lock) : Overseen (workerSetting (Kept l) (Finished l) l) l (Finished l) Mild where
  toSteady := finished_steady (fun hst hs => hst _ (.inl rfl) hs) WorkerAnswer.effect
  ports := fun hst hs => hst _ (.inr ⟨_, rfl⟩) hs
  answers := id
  needs := fun _ _ => trivial
  ext := ext_mild
  reads := fun p => ⟨⟨id, by simp [NoDelete]⟩, ⟨id, by simp [NoDelete]⟩, ⟨id, by simp [NoDelete]⟩⟩
  notes := fun _ _ _ _ _ _ => ⟨id, by simp [NoDelete]⟩
  rows := ⟨id, by simp [NoDelete]⟩

section Worker
variable {E : Setting magus Db} (h : Overseen E l (Finished l) Mild)
include h

theorem runYaraScan_goes (port : PortRow) (s : Db) : Goes E (Finished l) (runYaraScan port) s := by
  have done : ∀ {x : ℕ × String} {s : Db}, Goes E (Finished l) (pure x) s := fun _ _ => trivial
  refine (h.ext_goes (.yaraTargets port) s).seq fun targets s _ => ?_
  split
  · exact done
  refine (h.ext_goes .yaraRulesExist s).seq fun rules s _ => ?_
  split
  · exact done
  refine (h.ext_goes (.yaraTargetList _) s).seq fun trouble s _ => ?_
  cases trouble with
  | some msg => exact done
  | none =>
    change Goes E (Finished l) (if _ then _ else _) s
    split
    · exact done
    refine (h.runCommand .yara s).seq ?_
    rintro ⟨exit, out⟩ t _
    change Goes E (Finished l) (if _ then _ else if _ then _ else _) t
    split_ifs <;> exact done

theorem runScanPhase_finishes (hph : l.phase = .scan) (s : Db) :
    Finishes E (Finished l) (runScanPhase l.machine l.port) s := by
  have hset : ∀ {st : Status} (s : Db), st ≠ .running →
      Finishes E (Finished l) (setPhaseStatus l.machine l.port.id .scan st) s :=
    fun s hst => hph ▸ setPhaseStatus_finishes h.watched hst s
  have hnote : ∀ type msg name (s : Db),
      Goes E (Finished l) (noteEvent l.machine l.port.id type msg .scan name) s :=
    fun _ _ _ s => h.sql _ s
  have hlog : ∀ data, Uses (S := magus) Mild (fun _ _ => True) (replacePhaseLog l.port.id .scan data) :=
    fun data => hph ▸ replacePhaseLog_uses l (K := Final) (fun _ hs => ownStmt_mild hs) data
  refine (h.ext_goes (.pkgfileExists l.port) s).seq fun found s _ => ?_
  split
  · refine (hset s (by decide)).seq fun _ s hs => h.watched.finished ?_ hs
    exact Uses.bind (noteEvent_mild ..) fun _ => Uses.bind (hlog _) fun _ => Uses.pure _
  refine (h.runCommand (.clamav l.port) s).seq ?_
  rintro ⟨exit, out⟩ s _
  refine (hnote _ _ _ s).seq fun _ s _ => (runYaraScan_goes h l.port s).seq ?_
  rintro ⟨yaraExit, yaraOut⟩ s _
  refine (hnote _ _ _ s).seq fun _ s _ => (h.ext_goes (.sourceIntegrity l.port) s).seq ?_
  rintro ⟨integrityExit, integrityOut, warnings⟩ s _
  refine Outline.seq (Q := fun _ _ => True) (Outline.forEach (I := fun _ _ => True)
    (fun event _ s _ => hnote _ _ _ s) (fun _ _ _ _ => trivial) trivial) fun _ s _ => ?_
  exact (hset s (verdict_final ..).2).seq fun _ s hs => h.watched.finished (hlog _) hs

theorem runPhase_finishes (hph : l.phase ≠ .build) (s : Db) :
    Finishes E (Finished l) (runPhase l) s := by
  have hmake : ∀ s, Finishes E (Finished l) (runMakePhase l) s :=
    h.runMakePhase (reset_finishes h.watched)
  unfold runPhase
  cases hphase : l.phase with
  | build => exact absurd hphase hph
  | scan => exact runScanPhase_finishes h hphase s
  | fetch =>
    refine (h.ext_goes _ s).seq fun _ s _ => (h.injectFetchDepends hphase s).seq fun _ s _ => ?_
    refine (h.distfiles s).1.seq fun _ s _ => (hmake s).seq fun _ s hs => ?_
    refine h.watched.finished (Uses.bind ?_ fun _ => Uses.when fun _ => ?_) hs
    · exact phaseResult_uses ⟨id, by simp [NoDelete]⟩ ⟨id, by simp [NoDelete]⟩
    · exact (distfiles_uses l (K := Final) (fun _ hs => ownStmt_mild hs) ext_mild).2
  | test =>
    refine (h.ext_goes _ s).seq fun _ s _ => (h.injectDepends (by simp [hphase]) s).seq fun _ s _ => ?_
    refine (h.injectPkgfile l.port s).seq fun _ s _ => (h.distfiles s).1.seq fun _ s _ => ?_
    exact hmake s

end Worker

theorem run_finishes (l : Lock) (s : Db) :
    Outline (workerSetting (Kept l) (Finished l) l) (workerPost (Finished l)) (run l) s := by
  by_cases hph : l.phase = .build
  · have hover : ∀ t, Finished l t := fun _ h => h.1 hph
    refine Outline.trivial (fun _ _ => trivial) (fun x t => ?_) _ _
    cases x with
    | exit => exact .inr (hover t)
    | _ => exact hover t
  refine (worker_overseen l).run (fun hr hnot hu => ?_)
    (recordException_finishes (worker_overseen l).recording hph)
    (runPhase_finishes (worker_overseen l) hph) s
  obtain ⟨hfound, rfl⟩ := Prod.mk.inj (Option.some.inj (effect_exec hr.effect))
  exact of_decide_eq_false (hfound.trans hnot) hu.2.1

theorem insertResults_finishes (hph : l.phase ≠ .build) (h : Watched E get (Finished l) Mild R C)
    (results : Results) (s : σ) :
    Outline E (Ends (fun _ t => Finished l (get t)) R C) (insertResults l results) s := by
  unfold insertResults
  refine Outline.seq (Q := fun _ _ => True) (Outline.when (fun hb => absurd hb hph) fun _ _ _ => trivial)
    fun _ s _ => (setPhaseStatus_finishes h (summary_final _).2 s).seq fun _ s hs => h.finished ?_ hs
  refine Uses.bind (Uses.forEach fun _ _ => noteEvent_mild ..) fun _ => ?_
  refine Uses.bind (Uses.forEach fun _ _ => noteEvent_mild ..) fun _ => ?_
  refine Uses.bind (Uses.forEach fun _ _ => noteEvent_mild ..) fun _ => ?_
  cases results.log with
  | none => exact Uses.pure _
  | some data =>
    exact Uses.bind (replacePhaseLog_uses l (K := Final) (fun _ hs => ownStmt_mild hs) data) fun _ =>
      Uses.when fun hb => absurd hb hph

theorem makeChild_finishes (l : Lock) (s : Db × Prop) :
    Outline (childSetting (Kept l) (Finished l)) (fun _ => Told (Finished l)) (makeChild l) s := by
  by_cases hph : l.phase = .build
  · exact Outline.trivial (fun _ _ => trivial) (fun _ t => .inr fun h => h.1 hph) _ _
  have h : Steady (childSetting (Kept l) (Finished l)) Prod.fst (Finished l) Mild :=
    finished_steady (fun hst hs => hst.2 _ (.inl rfl) hs) fun hr => hr.1
  exact makeChild_told h (insertResults_finishes hph (child_watched h))
    (recordException_finishes (child_watched h) hph) s

theorem processDeadChild_finishes (l : Lock) (code : ℕ) (s : Db) (hs : code = 6 ∨ Finished l s) :
    Outline (burialSetting (Kept l) (Finished l) l code) (Buried (Finished l) code)
      (processDeadChild l code) s := by
  by_cases hph : l.phase = .build
  · have hover : ∀ t, Finished l t := fun _ h => h.1 hph
    exact Outline.trivial (E := burialSetting (Kept l) (Finished l) l code)
      (fun t _ => ⟨.inr (hover t), fun _ => hover t⟩) (fun _ t => .inr (hover t)) _ _
  have h : Steady (burialSetting (Kept l) (Finished l) l code) id (Finished l) Mild :=
    finished_steady (fun hst hs => hst _ (.inl rfl) hs) id
  refine processDeadChild_buried h (fun hr => effect_finished hr id) (fun hcode s => ?_) hs
  rw [if_neg hph]
  exact setPhaseStatus_finishes (burial_watched h hcode) (by decide) s

theorem killLock_finishes (l : Lock) (s : Db) :
    Outline (killerSetting (Kept l) (Finished l) l) (fun _ _ => True) (killLock l) s := by
  have h : Steady (killerSetting (Kept l) (Finished l) l) id (Finished l) Mild :=
    finished_steady (fun hst hs => hst _ (.inl rfl) hs) id
  exact killLock_buried h (reset_finishes (killer_watched h))

end Programs

theorem programs : Programs Kept fun l => Finished l where
  settled := fun _ => .inl rfl
  run := run_finishes
  makeChild := makeChild_finishes
  processDeadChild := processDeadChild_finishes
  killLock := killLock_finishes

end Mports.MagusRunning
