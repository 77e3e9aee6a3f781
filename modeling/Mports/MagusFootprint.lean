import Mports.MagusWorker

set_option autoImplicit false

namespace Mports.MagusFootprint
open MagusTables MagusStatements MagusPort MagusScan MagusWorker StatementPrograms

def Final (st : Status) : Prop := st ≠ .untested ∧ st ≠ .running
def Started (st : Status) : Prop := st ≠ .untested

instance (st : Status) : Decidable (Final st) := inferInstanceAs (Decidable (_ ∧ _))
instance (st : Status) : Decidable (Started st) := inferInstanceAs (Decidable (_ ≠ _))

/-- Statements about the phase a lock stands for, writing only statuses of `ok`; the
status of the port becomes final at once. -/
def OwnStmt (l : Lock) (ok : Status → Prop) : Stmt → Prop
  | .updateStatus p st => p = l.port.id ∧ l.phase = .build ∧ ok st ∧ Final st
  | .insertPhaseResult p ph => p = l.port.id ∧ ph = l.phase
  | .updatePhaseResult p ph st _ => p = l.port.id ∧ ph = l.phase ∧ ok st
  | .deletePhaseLog p ph | .insertPhaseLog p ph _ => p = l.port.id ∧ ph = l.phase
  | .deleteLog p | .insertLog p _ => p = l.port.id ∧ l.phase = .build
  | .updateResultStatus _ _ _ | .deleteEvent _ | .deleteLock _ | .insertPort _
  | .insertDepend _ => False
  | _ => True

/-- Statements of `reset`. -/
def ResetStmt (p : PortId) : Stmt → Prop
  | .updateStatus q st => q = p ∧ st = .untested
  | .insertPhaseResult q ph => q = p ∧ ph = .fetch
  | .updatePhaseResult q _ st _ => q = p ∧ st = .untested
  | .deletePhaseLog q _ | .deleteLog q => q = p
  | .updateResultStatus _ _ _ | .insertPhaseLog _ _ _ | .insertLog _ _ | .deleteLock _
  | .insertPort _ | .insertDepend _ | .insertEvent _ _ _ _ _ _ => False
  | _ => True

def IndexStmt (p : PortId) : Stmt → Prop
  | .updateStatus q st => q = p ∧ (st = .skip ∨ st = .fail)
  | .insertPhaseResult q _ => q = p
  | .updatePhaseResult q ph st _ => q = p ∧ ph = .build ∧ (st = .skip ∨ st = .fail)
  | .updateResultStatus q ph st => q = p ∧ ph ≠ .build ∧ st = .skip
  | .insertPort row => row.id = p
  | .deletePhaseLog _ _ | .deleteLog _ | .insertPhaseLog _ _ _ | .insertLog _ _ | .deleteLock _
  | .deleteEvent _ => False
  | _ => True

def OwnOp (l : Lock) (ok : Status → Prop) : Op → Prop
  | .sql s => OwnStmt l ok s
  | _ => True

def ResetOp (p : PortId) : Op → Prop
  | .sql s => ResetStmt p s
  | _ => False

/-- SIGINT in `waitpid`, which runs the handler of `run_make_phase`. -/
def Interrupted : (o : Op) → Except Exn o.Res → Prop
  | .waitpid, .ok .interrupted => True
  | _, _ => False

/-- What a worker can issue; the statements of `reset` only if the handler may run. -/
def WorkerOp (handled : Prop) (l : Lock) (o : Op) : Prop :=
  OwnOp l Started o ∨ handled ∧ ResetOp l.port.id o

def PhaseOp (handled : Prop) (l : Lock) (o : Op) : Prop :=
  OwnOp l Final o ∨ handled ∧ ResetOp l.port.id o

def ChildOp (l : Lock) : Op → Prop
  | .sql s => OwnStmt l Final s
  | .ext _ => True
  | _ => False

def BurialOp (l : Lock) (code : ℕ) : Op → Prop
  | .sql s => s = .deleteLock l ∨ code = 6 ∧
      if l.phase = .build then ResetStmt l.port.id s else OwnStmt l (· = .untested) s
  | _ => False

def KillerOp (l : Lock) : Op → Prop
  | .sql s => s = .deleteLock l ∨ ResetStmt l.port.id s
  | _ => False

def IndexOp (p : PortId) : Op → Prop
  | .sql s => IndexStmt p s
  | _ => False

theorem OwnStmt.mono {l : Lock} {ok ok' : Status → Prop} (h : ∀ st, ok st → ok' st) {s : Stmt}
    (hs : OwnStmt l ok s) : OwnStmt l ok' s := by
  cases s with
  | updateStatus p st => exact ⟨hs.1, hs.2.1, h st hs.2.2.1, hs.2.2.2⟩
  | updatePhaseResult p ph st machine => exact ⟨hs.1, hs.2.1, h st hs.2.2⟩
  | _ => exact hs

theorem PhaseOp.started {handled : Prop} {l : Lock} {o : Op} (h : PhaseOp handled l o) :
    WorkerOp handled l o := by
  rcases h with h | h
  · cases o with
    | sql s => exact .inl (OwnStmt.mono (fun _ hst => hst.1) h)
    | _ => exact .inl trivial
  · exact .inr h

section Ports
variable {P : Op → Prop} {A : (o : Op) → Except Exn o.Res → Prop}

theorem phaseResult_uses {p : PortId} {ph : Phase} (hr : P (.sql (.selectPhaseResults p)))
    (hi : P (.sql (.insertPhaseResult p ph))) : Uses P A (phaseResult p ph) := by
  refine Uses.bind (Uses.issue hr) fun rows => ?_
  split
  · exact Uses.pure _
  · exact Uses.bind (Uses.issue hi) fun _ => Uses.pure _

theorem setPhaseStatus_uses {machine : MachineId} {p : PortId} {ph : Phase} {st : Status}
    (hr : P (.sql (.selectPhaseResults p))) (hi : P (.sql (.insertPhaseResult p ph)))
    (hu : P (.sql (.updatePhaseResult p ph st (some machine)))) :
    Uses P A (setPhaseStatus machine p ph st) :=
  Uses.bind (phaseResult_uses hr hi) fun _ => Uses.issue hu

theorem setResult_uses {machine : MachineId} {p : PortId} {st : Status} {msg type : String}
    (hs : P (.sql (.updateStatus p st))) (hr : P (.sql (.selectPhaseResults p)))
    (hi : P (.sql (.insertPhaseResult p .build)))
    (hu : P (.sql (.updatePhaseResult p .build st (some machine))))
    (he : ∀ type msg name, P (.sql (.insertEvent p .build type name msg machine))) :
    Uses P A (setResult machine p st msg type) :=
  Uses.bind (Uses.issue hs) fun _ =>
    Uses.bind (setPhaseStatus_uses hr hi hu) fun _ => Uses.issue (he _ _ _)

theorem resetLogs_uses (p : PortId) (h : ∀ s, ResetStmt p s → P (.sql s)) :
    Uses P A (resetLogs p) := by
  refine Uses.bind (Uses.issue (h _ trivial)) fun _ => ?_
  refine Uses.bind (Uses.forEach fun _ _ => Uses.issue (h _ trivial)) fun _ => ?_
  refine Uses.bind (Uses.issue (h _ trivial)) fun _ => ?_
  refine Uses.bind (Uses.when fun _ => Uses.issue (h (.deleteLog p) rfl)) fun _ => ?_
  refine Uses.bind (Uses.issue (h _ trivial)) fun _ => Uses.forEach fun ph _ => Uses.bind ?_ fun _ =>
    Uses.when fun _ => Uses.issue (h (.deletePhaseLog p ph) rfl)
  refine Uses.ite (fun _ => ?_) fun _ => Uses.pure _
  exact Uses.bind (phaseResult_uses (h _ trivial) (h (.insertPhaseResult p .fetch) ⟨rfl, rfl⟩))
    fun _ => Uses.pure _

theorem resetRows_uses (p : PortId) (h : ∀ s, ResetStmt p s → P (.sql s)) :
    Uses P A (resetRows p) :=
  Uses.bind (Uses.issue (h _ trivial)) fun _ => Uses.forEach fun _ _ =>
    Uses.when fun _ => Uses.issue (h (.updatePhaseResult p _ .untested none) ⟨rfl, rfl⟩)

theorem reset_uses (p : PortId) (h : ∀ s, ResetStmt p s → P (.sql s)) : Uses P A (reset p) :=
  Uses.bind (resetLogs_uses p h) fun _ => Uses.bind (resetRows_uses p h) fun _ =>
    Uses.issue (h (.updateStatus p .untested) ⟨rfl, rfl⟩)

theorem indexPort_uses (machine : MachineId) (row : PortRow) (ignore : Option String) :
    Uses (IndexOp row.id) A (indexPort machine row ignore) := by
  refine Uses.bind (Uses.issue rfl) fun _ => Uses.bind ?_ fun _ => ?_
  · exact Uses.forEach fun ph _ => Uses.bind (phaseResult_uses trivial rfl) fun _ => Uses.pure _
  · cases ignore with
    | none => exact Uses.pure _
    | some msg =>
      refine Uses.bind (setResult_uses ⟨rfl, .inl rfl⟩ trivial rfl ⟨rfl, rfl, .inl rfl⟩
        fun _ _ _ => trivial) fun _ => Uses.forEach fun ph hph => ?_
      refine Uses.bind (phaseResult_uses trivial rfl) fun _ => Uses.issue ⟨rfl, ?_, rfl⟩
      simpa using (List.mem_filter.1 hph).2

theorem indexDepends_uses (machine : MachineId) (p : PortId)
    (depends : List (Except String (PortId × String))) :
    Uses (IndexOp p) A (indexDepends machine p depends) := by
  induction depends with
  | nil => exact Uses.ret _
  | cons d rest ih =>
    rcases d with missing | ⟨dependency, type⟩
    · exact setResult_uses ⟨rfl, .inr rfl⟩ trivial rfl ⟨rfl, rfl, .inr rfl⟩ fun _ _ _ => trivial
    · exact Uses.bind (Uses.issue trivial) fun _ => ih

end Ports

section Workers
variable {P : Op → Prop} {A : (o : Op) → Except Exn o.Res → Prop} (l : Lock)

theorem setOwn_uses {st : Status} {K : Status → Prop} (hst : K st)
    (h : ∀ s, OwnStmt l K s → P (.sql s)) :
    Uses P A (setPhaseStatus l.machine l.port.id l.phase st) :=
  setPhaseStatus_uses (h _ trivial) (h _ ⟨rfl, rfl⟩) (h _ ⟨rfl, rfl, hst⟩)

theorem recordException_uses (error : Exn) {K : Status → Prop} (hst : K .internal)
    (h : ∀ s, OwnStmt l K s → P (.sql s)) : Uses P A (recordException l error) := by
  refine Uses.ite (fun hb => ?_) fun _ => ?_
  · exact setResult_uses (h _ ⟨rfl, hb, hst, by decide⟩) (h _ trivial) (h _ ⟨rfl, hb.symm⟩)
      (h _ ⟨rfl, hb.symm, hst⟩) fun _ _ _ => h _ trivial
  · exact Uses.bind (setOwn_uses l hst h) fun _ => Uses.issue (h _ trivial)

theorem replacePhaseLog_uses {K : Status → Prop} (h : ∀ s, OwnStmt l K s → P (.sql s))
    (data : String) : Uses P A (replacePhaseLog l.port.id l.phase data) :=
  Uses.bind (Uses.issue (h (.deletePhaseLog _ _) ⟨rfl, rfl⟩)) fun _ =>
    Uses.issue (h (.insertPhaseLog _ _ _) ⟨rfl, rfl⟩)

theorem summary_final (summary : Summary) : Final summary.status := by
  cases summary <;> exact ⟨by decide, by decide⟩

theorem insertResults_uses (results : Results) {K : Status → Prop}
    (hfinal : K results.summary.status) (h : ∀ s, OwnStmt l K s → P (.sql s)) :
    Uses P A (insertResults l results) := by
  refine Uses.bind (Uses.when fun hb => ?_) fun _ => Uses.bind (setOwn_uses l hfinal h) fun _ => ?_
  · exact Uses.issue (h (.updateStatus _ _) ⟨rfl, hb, hfinal, summary_final _⟩)
  refine Uses.bind (Uses.forEach fun _ _ => Uses.issue (h _ trivial)) fun _ => ?_
  refine Uses.bind (Uses.forEach fun _ _ => Uses.issue (h _ trivial)) fun _ => ?_
  refine Uses.bind (Uses.forEach fun _ _ => Uses.issue (h _ trivial)) fun _ => ?_
  cases results.log with
  | none => exact Uses.pure _
  | some data =>
    refine Uses.bind (replacePhaseLog_uses l h data) fun _ => Uses.when fun hb => ?_
    exact Uses.bind (Uses.issue (h (.deleteLog _) ⟨rfl, hb⟩)) fun _ =>
      Uses.issue (h (.insertLog _ _) ⟨rfl, hb⟩)

theorem makeChild_uses : Uses (ChildOp l) A (makeChild l) := by
  refine Uses.bind (Uses.tryCatch ?_ fun error => ?_) fun _ => Uses.exit _
  · exact Uses.bind (Uses.issue trivial) fun _ => Uses.bind (Uses.issue trivial) fun results =>
      insertResults_uses l results (summary_final _) fun _ hs => hs
  · refine Uses.ite (fun _ => Uses.exit _) fun _ => Uses.tryCatch ?_ fun _ => Uses.pure _
    exact recordException_uses l error ⟨by decide, by decide⟩ fun _ hs => hs

theorem scp_uses {c : Command} (h : P (.ext (.command c))) : Uses P A (scp c) :=
  Uses.bind (Uses.bind (Uses.issue h) fun _ => Uses.pure _) fun _ =>
    Uses.when fun _ => Uses.raise _

theorem injectAll_uses (scheduled : String) (depends : List PortRow)
    (hs : ∀ p, P (.sql (.selectStatus p))) (hx : ∀ x, P (.ext x)) :
    Uses P A (injectAll scheduled depends) :=
  Uses.forEach fun _ _ => Uses.bind (Uses.issue (hs _)) fun _ =>
    Uses.ite (fun _ => scp_uses (hx _)) fun _ => Uses.raise _

theorem distfiles_uses {K : Status → Prop} (h : ∀ s, OwnStmt l K s → P (.sql s))
    (hx : ∀ x, P (.ext x)) :
    Uses P A (injectDistfiles l) ∧ Uses P A (uploadDistfiles l) :=
  ⟨Uses.bind (Uses.issue (h _ trivial)) fun _ => Uses.forEach fun _ _ => Uses.issue (hx _),
    Uses.bind (Uses.issue (h _ trivial)) fun _ => Uses.forEach fun _ _ => Uses.issue (hx _)⟩

theorem verdict_final (exit yaraExit integrityExit : ℕ) (warnings : List SubResult) :
    Final (integrityStatus integrityExit warnings (yaraStatus yaraExit (clamavStatus exit))) := by
  have hclam : Final (clamavStatus exit) := by
    unfold clamavStatus
    split_ifs <;> decide
  have hyara : ∀ st, Final st → Final (yaraStatus yaraExit st) := by
    intro st hst
    unfold yaraStatus
    split_ifs <;> first | exact hst | decide
  have hintegrity : ∀ st, Final st → Final (integrityStatus integrityExit warnings st) := by
    intro st hst
    unfold integrityStatus
    split_ifs <;> first | exact hst | decide
  exact hintegrity _ (hyara _ hclam)

theorem runScanPhase_uses (hscan : l.phase = .scan) (h : ∀ s, OwnStmt l Final s → P (.sql s))
    (hx : ∀ x, P (.ext x)) : Uses P A (runScanPhase l.machine l.port) := by
  have hset : ∀ {st}, Final st → Uses P A (setPhaseStatus l.machine l.port.id .scan st) :=
    fun hst => hscan ▸ setOwn_uses l hst h
  have hlog : ∀ data, Uses P A (replacePhaseLog l.port.id .scan data) :=
    fun data => hscan ▸ replacePhaseLog_uses l h data
  have hnote : ∀ type msg name,
      Uses P A (noteEvent l.machine l.port.id type msg .scan name) :=
    fun _ _ _ => Uses.issue (h _ trivial)
  have hrun : ∀ c, Uses P A (runCommand c) :=
    fun c => Uses.bind (Uses.issue (hx _)) fun _ => Uses.pure _
  have hyara : Uses P A (runYaraScan l.port) := by
    refine Uses.bind (Uses.issue (hx _)) fun _ => Uses.ite (fun _ => Uses.pure _) fun _ => ?_
    refine Uses.bind (Uses.issue (hx _)) fun _ => Uses.ite (fun _ => Uses.pure _) fun _ => ?_
    refine Uses.bind (Uses.issue (hx _)) fun trouble => ?_
    cases trouble with
    | some msg => exact Uses.pure _
    | none =>
      refine Uses.ite (fun _ => Uses.pure _) fun _ => Uses.bind (hrun _) fun _ => ?_
      exact Uses.ite (fun _ => Uses.pure _) fun _ =>
        Uses.ite (fun _ => Uses.pure _) fun _ => Uses.pure _
  refine Uses.bind (Uses.issue (hx _)) fun _ => Uses.ite (fun _ => ?_) fun _ => ?_
  · exact Uses.bind (hset (by decide)) fun _ => Uses.bind (hnote _ _ _) fun _ =>
      Uses.bind (hlog _) fun _ => Uses.pure _
  refine Uses.bind (hrun _) fun clam => Uses.bind (hnote _ _ _) fun _ => Uses.bind hyara fun yara => ?_
  refine Uses.bind (hnote _ _ _) fun _ => Uses.bind (Uses.issue (hx _)) fun integrity => ?_
  exact Uses.bind (Uses.forEach fun _ _ => hnote _ _ _) fun _ =>
    Uses.bind (hset (verdict_final _ _ _ _)) fun _ => hlog _

theorem runMakePhase_uses {handled : Prop} :
    Uses (PhaseOp handled l) (fun o r => Interrupted o r → handled) (runMakePhase l) := by
  refine Uses.bind (Uses.issue (.inl trivial)) fun _ => ?_
  -- the answer to `waitpid` decides whether the handler of SIGINT runs
  refine ⟨.inl trivial, fun r hr => ?_⟩
  cases r with
  | error e => exact Uses.raise e
  | ok waited =>
    cases waited with
    | done st =>
      refine Uses.ite (fun _ => ?_) fun _ => Uses.raise _
      exact Uses.bind (Uses.issue (.inl trivial)) fun _ => Uses.pure _
    | interrupted =>
      have hreset : ∀ s, ResetStmt l.port.id s → PhaseOp handled l (.sql s) :=
        fun s hs => .inr ⟨hr trivial, hs⟩
      change Uses _ _ (Prog.issue (S := magus) .waitpidAgain >>= fun _ => reset l.port.id >>=
        fun _ => Prog.exit 0)
      exact Uses.bind (Uses.issue (.inl trivial)) fun _ =>
        Uses.bind (reset_uses _ hreset) fun _ => Uses.exit _

theorem runPhase_uses {handled : Prop} :
    Uses (PhaseOp handled l) (fun o r => Interrupted o r → handled) (runPhase l) := by
  have hsql : ∀ s, OwnStmt l Final s → PhaseOp handled l (.sql s) := fun _ hs => .inl hs
  have hext : ∀ x, PhaseOp handled l (.ext x) := fun _ => .inl trivial
  have hprep : Uses (PhaseOp handled l) (fun o r => Interrupted o r → handled)
      (act .prepChroot) := Uses.issue (hext _)
  have hfiles := distfiles_uses (P := PhaseOp handled l)
    (A := fun o r => Interrupted o r → handled) l hsql hext
  have hdepends : Uses (PhaseOp handled l) (fun o r => Interrupted o r → handled)
      (injectDepends l) := by
    refine Uses.bind (Uses.issue (hsql _ trivial)) fun _ => ?_
    exact injectAll_uses _ _ (fun _ => hsql _ trivial) hext
  unfold runPhase
  cases hphase : l.phase with
  | scan => exact runScanPhase_uses l hphase hsql hext
  | build =>
    refine Uses.bind hprep fun _ => Uses.bind hdepends fun _ => Uses.bind hfiles.1 fun _ => ?_
    refine Uses.bind (runMakePhase_uses l) fun _ => Uses.bind (Uses.issue (hsql _ trivial)) fun _ => ?_
    exact Uses.when fun _ => Uses.bind (scp_uses (hext _)) fun _ => hfiles.2
  | fetch =>
    refine Uses.bind hprep fun _ => Uses.bind ?_ fun _ => Uses.bind hfiles.1 fun _ => ?_
    · refine Uses.bind (Uses.issue (hsql _ trivial)) fun _ => ?_
      exact injectAll_uses _ _ (fun _ => hsql _ trivial) hext
    refine Uses.bind (runMakePhase_uses l) fun _ => Uses.bind ?_ fun _ => Uses.when fun _ => hfiles.2
    exact phaseResult_uses (hsql _ trivial) (hsql (.insertPhaseResult _ _) ⟨rfl, hphase.symm⟩)
  | test =>
    refine Uses.bind hprep fun _ => Uses.bind hdepends fun _ => Uses.bind (scp_uses (hext _)) fun _ => ?_
    exact Uses.bind hfiles.1 fun _ => runMakePhase_uses l

theorem run_uses {handled : Prop} :
    Uses (WorkerOp handled l) (fun o r => Interrupted o r → handled) (run l) := by
  have hsql : ∀ s, OwnStmt l Started s → WorkerOp handled l (.sql s) := fun _ hs => .inl hs
  have hnote : ∀ type msg name, Uses (WorkerOp handled l) (fun o r => Interrupted o r → handled)
      (noteEvent l.machine l.port.id type msg l.phase name) :=
    fun _ _ _ => Uses.issue (hsql _ trivial)
  refine Uses.tryCatch (Uses.bind (Uses.issue (hsql _ trivial)) fun _ => Uses.when fun _ => ?_)
    fun error => ?_
  · refine Uses.bind (setOwn_uses l (K := Started) (by decide) hsql) fun _ => ?_
    refine Uses.bind (hnote _ _ _) fun _ =>
      Uses.bind ((runPhase_uses l).mono fun _ => PhaseOp.started) fun _ => ?_
    refine Uses.bind ?_ fun _ => hnote _ _ _
    exact phaseResult_uses (hsql _ trivial) (hsql (.insertPhaseResult _ _) ⟨rfl, rfl⟩)
  · refine Uses.ite (fun _ => Uses.exit _) fun _ => Uses.ite (fun _ => Uses.pure _) fun _ => ?_
    refine Uses.tryCatch (recordException_uses l error (K := Started) (by decide) hsql) fun _ => ?_
    exact Uses.ite (fun _ => Uses.exit _) fun _ => Uses.pure _

theorem processDeadChild_uses (code : ℕ) : Uses (BurialOp l code) A (processDeadChild l code) := by
  refine Uses.bind (Uses.when fun hcode => ?_) fun _ => Uses.issue (.inl rfl)
  refine Uses.ite (fun hb => ?_) fun hb => ?_
  · exact reset_uses _ fun s hs => .inr ⟨hcode, by rwa [if_pos hb]⟩
  · exact setOwn_uses l (K := (· = .untested)) rfl fun s hs => .inr ⟨hcode, by rwa [if_neg hb]⟩

theorem killLock_uses : Uses (KillerOp l) A (killLock l) :=
  Uses.bind (reset_uses _ fun _ hs => .inr hs) fun _ => Uses.issue (.inl rfl)

end Workers
end Mports.MagusFootprint
