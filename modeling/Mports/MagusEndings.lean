import Mports.DependsClosures
import Mports.MagusOwnership

set_option autoImplicit false

namespace Mports.MagusEndings
open MagusTables MagusDepends MagusStatements MagusPort MagusScan MagusWorker MagusFootprint
open MagusEffects MagusTasks MagusOwnership StatementPrograms

/-- What `inject_depends` and its twin say a port was scheduled for. -/
def scheduled (l : Lock) : String :=
  if l.phase = .fetch then "to fetch, but fetch dependency " else "for " ++ l.phase.text ++ ", but "

/-- What makes `Worker::run` return as if the phase were over: a signal, and an
exception that reads like one. -/
def Silences (l : Lock) (db : Db) : (o : Op) → Except Exn o.Res → Prop
  | _, .error e => Silent e
  | .ext (.command (.copyIn _)), .ok x => x.1.exitcode ≠ 0 ∧ Silent (scpMessage x.2)
  | .sql (.selectStatus p), .ok st => ¬ Status.Good st ∧
      ∃ row ∈ db.tree.ports, row.id = p ∧ Silent (notBuilt (scheduled l) row)
  | _, _ => False

theorem silences_copyIn {l : Lock} {db : Db} {row : PortRow} {x : WaitStatus × String}
    (hne : x.1.exitcode ≠ 0) (h : Silent (scpMessage x.2)) :
    Silences l db (.ext (.command (.copyIn row))) (.ok x) := by
  unfold Silences
  exact ⟨hne, h⟩

theorem silences_selectStatus {l : Lock} {db : Db} {row : PortRow} {st : Status} (hst : ¬ st.Good)
    (hrow : row ∈ db.tree.ports) (h : Silent (notBuilt (scheduled l) row)) :
    Silences l db (.sql (.selectStatus row.id)) (.ok st) := by
  unfold Silences
  exact ⟨hst, row, hrow, rfl, h⟩

theorem effect_exec {s u : Db} {st : Stmt} {x : st.Res} (h : Effect s (.sql st) (.ok x) u) :
    st.exec s = some (x, u) := by
  rcases h with ⟨ch, ha⟩ | ⟨_, hno⟩
  · rcases answer_sql ha with ⟨y, hy, hexec⟩ | ⟨_, _, hne, _, _⟩
    · cases hy
      exact hexec
    · cases hne
  · exact absurd rfl (hno x (.inl ⟨_, rfl⟩))

theorem effect_waitpid {s u : Db} {r : Except Exn Waited} (h : Effect s .waitpid r u) : u = s := by
  rcases h with ⟨ch, ha⟩ | ⟨rfl, _⟩
  · cases ch <;> cases ha
  · rfl

section Parts
variable {σ : Type} {E : Setting magus σ} {get : σ → Db} {Over : Db → Prop} {M : Op → Prop}
  {R : Exn → σ → Prop} {C : Fin 256 → σ → Prop} {α : Type}

/-- A setting in which the exception of every statement leaves what `R` says. -/
structure Relays (E : Setting magus σ) (R : Exn → σ → Prop) : Prop where
  raises : ∀ {s st e u v}, E.answers s (.sql st) (.error e) u → E.rely none u v → R e v
  free : ∀ {s o}, NoDelete o → E.needs s o

/-- A setting that keeps `Over`: nobody else undoes it while a statement or an operation
of `M` is pending, and those of `M` do not either. -/
structure Steady (E : Setting magus σ) (get : σ → Db) (Over : Db → Prop) (M : Op → Prop) : Prop where
  stable : ∀ {o s t}, (∀ x, o = some x → M x ∨ ∃ st, x = .sql st) → E.rely o s t →
    Over (get s) → Over (get t)
  effect : ∀ {s o r u}, E.answers s o r u → Effect (get s) o r (get u)
  keeps : ∀ {s o r u}, Effect s o r u → M o → Over s → Over u
  mild : ∀ {o}, M o → NoDelete o

structure Watched (E : Setting magus σ) (get : σ → Db) (Over : Db → Prop) (M : Op → Prop)
    (R : Exn → σ → Prop) (C : Fin 256 → σ → Prop) : Prop extends Relays E R, Steady E get Over M where
  raised : ∀ {e s}, Over (get s) → R e s
  exited : ∀ {code s}, Over (get s) → C code s

namespace Relays
variable (h : Relays E R)
include h

theorem sql (st : Stmt) (hst : NoDelete (.sql st)) (s : σ) :
    Outline E (Ends (fun _ _ => True) R C) (sql st) s :=
  Outline.issue fun _ _ => ⟨h.free hst, fun _ _ _ _ _ => trivial, fun _ _ hr _ hv => h.raises hr hv⟩

theorem phaseResult (p : PortId) (ph : Phase) (s : σ) :
    Outline E (Ends (fun _ _ => True) R C) (phaseResult p ph) s := by
  refine (h.sql _ (by simp [NoDelete]) s).seq fun rows t _ => ?_
  split
  · exact fun _ _ => trivial
  · exact (h.sql _ (by simp [NoDelete]) t).seq fun _ _ _ _ _ => trivial

theorem resetLogs (p : PortId) (s : σ) :
    Outline E (Ends (fun _ _ => True) R C) (resetLogs p) s := by
  have each : ∀ {β : Type} {xs : List β} {f : β → Magus Unit},
      (∀ x s, Outline E (Ends (fun _ _ => True) R C) (f x) s) → ∀ s,
        Outline E (Ends (fun _ _ => True) R C) (Prog.forEach xs f) s :=
    fun hf s => Outline.forEach (I := fun _ _ => True) (fun x _ s _ => hf x s)
      (fun _ _ _ _ => trivial) trivial
  have when : ∀ {c : Prop} [Decidable c] {q : Magus Unit},
      (∀ s, Outline E (Ends (fun _ _ => True) R C) q s) → ∀ s,
        Outline E (Ends (fun _ _ => True) R C) (Prog.when c q) s :=
    fun hq s => Outline.when (fun _ => hq s) fun _ _ _ => trivial
  refine (h.sql (.selectEvents p) (by simp [NoDelete]) s).seq fun events s _ => ?_
  refine (each (fun id s => h.sql (.deleteEvent id) (by simp [NoDelete]) s) s).seq fun _ s _ => ?_
  refine (h.sql (.selectLog p) (by simp [NoDelete]) s).seq fun log s _ => ?_
  refine (when (h.sql (.deleteLog p) (by simp [NoDelete])) s).seq fun _ s _ => ?_
  refine (h.sql (.selectPhaseLogs p) (by simp [NoDelete]) s).seq fun logs s _ => ?_
  refine each (fun ph s => Outline.seq (Q := fun _ _ => True) ?_ fun _ s _ =>
    when (h.sql (.deletePhaseLog p ph) (by simp [NoDelete])) s) s
  unfold keepsLog
  split
  · exact (h.phaseResult _ _ s).seq fun _ _ _ _ _ => trivial
  · exact fun _ _ => trivial

end Relays

namespace Steady
variable (h : Steady E get Over M)
include h

theorem statement (relays : Relays E R) {st : Stmt} (hst : M (.sql st)) {s : σ} (hs : Over (get s)) :
    Outline E (Ends (fun _ t => Over (get t)) R C) (sql st) s :=
  Outline.issue fun _ ht => ⟨relays.free (h.mild hst),
    fun _ _ hr _ hv => h.stable (by simp) hv (h.keeps (h.effect hr) hst (h.stable (by simp) ht hs)),
    fun _ _ hr _ hv => relays.raises hr hv⟩

theorem makes (relays : Relays E R) {st : Stmt} (hst : NoDelete (.sql st))
    (hover : ∀ {s x u}, Effect s (.sql st) (.ok x) u → Over u) (s : σ) :
    Outline E (Ends (fun _ t => Over (get t)) R C) (sql st) s :=
  Outline.issue fun _ _ => ⟨relays.free hst,
    fun _ _ hr _ hv => h.stable (by simp) hv (hover (h.effect hr)),
    fun _ _ hr _ hv => relays.raises hr hv⟩

/-- Either the phase is over once `reset` has read its rows, or its row is one of those
still to be updated. -/
theorem resetRows (relays : Relays E R) {p : PortId} (ph : Phase)
    (hread : ∀ {s : Db}, (∀ st, s.phaseStatus p ph = some st → ph = .fetch ∧ st = .pass) → Over s)
    (hwrite : ∀ {s x u}, Effect s (.sql (.updatePhaseResult p ph .untested none)) (.ok x) u → Over u)
    (hM : ∀ ph, M (.sql (.updatePhaseResult p ph .untested none))) (s : σ) :
    Outline E (Ends (fun _ t => Over (get t)) R C) (resetRows p) s := by
  refine Outline.seq (Q := fun rows t => Over (get t) ∨
      ∃ st, (ph, st) ∈ rows ∧ ¬ (ph = .fetch ∧ st = .pass))
    (Outline.issue fun t _ => ⟨relays.free (by simp [NoDelete]), fun rows u hr v hv => ?_,
      fun _ _ hr _ hv => relays.raises hr hv⟩) fun rows s hrows => Outline.forEach
        (I := fun rows t => Over (get t) ∨ ∃ st, (ph, st) ∈ rows ∧ ¬ (ph = .fetch ∧ st = .pass))
        (fun row rows s hs => ?_) (fun s t hs hst => h.stable (by simp) hst (by simpa using hs)) hrows
  · by_cases hu : Over (get u)
    · exact .inl (h.stable (by simp) hv hu)
    have hdirty : ∃ st, (get u).phaseStatus p ph = some st ∧ ¬ (ph = .fetch ∧ st = .pass) := by
      by_contra hno
      exact hu (hread fun st hst => not_not.1 fun hne => hno ⟨st, hst, hne⟩)
    obtain ⟨st, hst, hne⟩ := hdirty
    obtain ⟨rfl, hsame⟩ : rows = Stmt.phaseResults (get t) p ∧ get u = get t := by
      simpa [Stmt.exec, eq_comm] using effect_exec (h.effect hr)
    exact .inr ⟨st, mem_phaseResults.2 (hsame ▸ hst), hne⟩
  · rcases hs with hs | ⟨st, hs, hne⟩
    · exact Outline.when (fun _ => (h.statement relays (hM _) hs).returns fun _ _ => .inl)
        fun _ t ht => .inl (h.stable (by simp) ht hs)
    rcases List.mem_cons.1 hs with rfl | hs
    · exact Outline.when (fun _ => (h.makes relays (h.mild (hM _)) hwrite s).returns fun _ _ => .inl)
        fun hskip => absurd hne hskip
    · exact Outline.when (fun _ => (relays.sql _ (h.mild (hM _)) s).returns
        fun _ _ _ => .inr ⟨st, hs, hne⟩) fun _ _ _ => .inr ⟨st, hs, hne⟩

end Steady

theorem Watched.finished (h : Watched E get Over M R C) {q : Magus α}
    (hq : Uses (S := magus) M (fun _ _ => True) q) {s : σ} (hs : Over (get s)) :
    Outline E (Ends (fun _ t => Over (get t)) R C) q s := by
  have hq := Outline.of_uses (E := E) (I := fun t => Over (get t))
    (fun _ _ _ ho hI hst => h.stable (fun x hx => .inl (ho x hx)) hst hI)
    (fun _ _ ho hI => ⟨h.free (h.mild ho), fun _ _ hr => ⟨trivial, h.keeps (h.effect hr) ho hI⟩⟩) hq hs
  refine hq.mono fun x t ht => ?_
  cases x with
  | ret => exact ht
  | raise => exact h.raised ht
  | exit => exact h.exited ht

end Parts

section Worker
variable {E : Setting magus Db} {l : Lock} {Over : Db → Prop} {M : Op → Prop}

/-- A make child that exits with 0 leaves its phase over. -/
def Reported (Over : Db → Prop) (db : Db) : (o : Op) → Except Exn o.Res → Prop
  | .waitpid, .ok (.done st) => st.value = 0 → Over db
  | _, _ => True

structure WorkerAnswer (l : Lock) (Over : Db → Prop) (s : Db) (o : Op) (r : Except Exn o.Res)
    (u : Db) : Prop where
  effect : Effect s o r u
  heard : ¬ Over s → ¬ Silences l s o r
  lost : ∀ st e, o = .sql st → r = .error e → Matches "DBI" e ∨ Silent e
  reported : Reported Over s o r

structure Overseen (E : Setting magus Db) (l : Lock) (Over : Db → Prop) (M : Op → Prop) : Prop
    extends Steady E id Over M where
  ports : ∀ {o s t row}, E.rely o s t → row ∈ s.tree.ports → row ∈ t.tree.ports
  answers : ∀ {s o r u}, E.answers s o r u → WorkerAnswer l Over s o r u
  needs : ∀ s o, E.needs s o
  ext : ∀ x, M (.ext x)
  reads : ∀ p, M (.sql (.selectStatus p)) ∧ M (.sql (.selectPhaseResults p)) ∧
    M (.sql (.selectDistfiles p))
  notes : ∀ p ph type name msg machine, M (.sql (.insertEvent p ph type name msg machine))
  rows : M (.sql (.insertPhaseResult l.port.id l.phase))

/-- In it other processes keep the assertions of `kept`. -/
def workerSetting (kept : Option Op → (Db → Prop) → Prop) (Over : Db → Prop) (l : Lock) :
    Setting magus Db :=
  .keeping kept (WorkerAnswer l Over) fun _ _ => True

/-- An exception the worker will pass over in silence comes only after the phase. -/
def Heard (Over : Db → Prop) (e : Exn) (t : Db) : Prop := Silent e → Over t

def Left (Over : Db → Prop) (code : Fin 256) (t : Db) : Prop := code = 6 ∨ Over t

def workerPost (Over : Db → Prop) : Exit magus Unit → Db → Prop :=
  Ends (fun _ => Over) (fun _ => Over) (Left Over)

/-- A part of the worker that need not finish the phase, and one after which it is over. -/
abbrev Goes (E : Setting magus Db) (Over : Db → Prop) {α : Type} (q : Magus α) (s : Db) : Prop :=
  Outline E (Ends (fun _ _ => True) (Heard Over) (Left Over)) q s

abbrev Finishes (E : Setting magus Db) (Over : Db → Prop) {α : Type} (q : Magus α) (s : Db) : Prop :=
  Outline E (Ends (fun _ => Over) (Heard Over) (Left Over)) q s

namespace Overseen
variable (h : Overseen E l Over M)
include h

theorem still {s t : Db} (hst : E.rely none s t) (hs : Over s) : Over t :=
  h.stable (by simp) hst hs

theorem heard {s u v : Db} {o : Op} {e : Exn} (hr : E.answers s o (.error e) u)
    (hv : E.rely none u v) : Heard Over e v := by
  intro hsilent
  refine h.still hv ?_
  rw [(h.answers hr).effect.error]
  by_contra hs
  exact (h.answers hr).heard hs hsilent

theorem watched : Watched E id Over M (Heard Over) (Left Over) where
  toSteady := h.toSteady
  raises := h.heard
  free := fun _ => h.needs _ _
  raised := fun hs _ => hs
  exited := .inr

theorem recording : Watched E id Over M (fun e t => Matches "DBI" e ∨ Over t) (Left Over) where
  toSteady := h.toSteady
  raises := fun hr hv => ((h.answers hr).lost _ _ rfl rfl).imp id (h.heard hr hv)
  free := fun _ => h.needs _ _
  raised := .inr
  exited := .inr

theorem issue (o : Op) (s : Db) : Goes E Over (Prog.issue o) s :=
  Outline.issue fun _ _ => ⟨h.needs _ _, fun _ _ _ _ _ => trivial, fun _ _ hr _ hv => h.heard hr hv⟩

theorem sql (st : Stmt) (s : Db) : Goes E Over (sql st) s := h.issue _ s

theorem ext_goes (x : External) (s : Db) : Goes E Over (MagusStatements.ext x) s := h.issue _ s

theorem runCommand (c : Command) (s : Db) : Goes E Over (runCommand c) s :=
  (h.ext_goes (.command c) s).seq fun ⟨_, _⟩ _ _ _ _ => trivial

theorem injectPkgfile (port : PortRow) (s : Db) : Goes E Over (injectPkgfile port) s := by
  have hrun : Outline E (Ends (fun x t => x.1 ≠ 0 → Silent (scpMessage x.2) → Over t) (Heard Over)
      (Left Over)) (MagusScan.runCommand (.copyIn port)) s := by
    refine Outline.seq (Q := fun x t => x.1.exitcode ≠ 0 → Silent (scpMessage x.2) → Over t)
      (Outline.issue fun t _ => ⟨h.needs _ _, fun x u hr v hv hne hsilent => h.still hv ?_,
        fun _ _ hr _ hv => h.heard hr hv⟩) ?_
    · refine h.keeps (h.answers hr).effect (h.ext _) ?_
      by_contra hs
      exact (h.answers hr).heard hs (silences_copyIn hne hsilent)
    · rintro ⟨st, out⟩ t hx v hv hne hsilent
      exact h.still hv (hx hne hsilent)
  refine hrun.seq ?_
  rintro ⟨exit, out⟩ t hx
  refine Outline.when (fun hne => ?_) fun _ _ _ => trivial
  intro v hv hsilent
  exact h.still hv (hx hne hsilent)

theorem keeps_ports {α : Type} (q : Magus α) {rows : List PortRow} {s : Db}
    (hs : ∀ x ∈ rows, x ∈ s.tree.ports) : Outline E (fun _ t => ∀ x ∈ rows, x ∈ t.tree.ports) q s := by
  refine Outline.of_uses (A := fun _ _ => True) (fun _ _ _ _ hs hst x hx => h.ports hst (hs x hx))
    (fun o t _ hs => ⟨h.needs _ _, fun r u hr => ⟨trivial, fun x hx => ?_⟩⟩) (Uses.all q) hs
  rcases (h.answers hr).effect with ⟨ch, ha⟩ | ⟨rfl, _⟩
  · exact answer_ports ha (hs x hx)
  · exact hs x hx

theorem injectAll {depends : List PortRow} {s : Db} (hs : ∀ x ∈ depends, x ∈ s.tree.ports) :
    Goes E Over (injectAll (scheduled l) depends) s := by
  refine Outline.forEach (I := fun rows t => ∀ x ∈ rows, x ∈ t.tree.ports)
    (fun depend rows s hs => ?_) (fun _ _ _ _ => trivial) hs
  have hbody : Goes E Over (do
      let st ← MagusStatements.sql (.selectStatus depend.id)
      if st.Good then MagusScan.injectPkgfile depend
      else Prog.raise (notBuilt (scheduled l) depend)) s := by
    refine Outline.seq (Q := fun st t => ¬ Status.Good st → Silent (notBuilt (scheduled l) depend) →
      Over t) (Outline.issue fun t ht => ⟨h.needs _ _, fun st u hr v hv hst hsilent =>
        h.still hv ?_, fun _ _ hr _ hv => h.heard hr hv⟩) fun st t ht => ?_
    · have hdepend : depend ∈ t.tree.ports := h.ports ht (hs depend (by simp))
      refine h.keeps (h.answers hr).effect (h.reads _).1 ?_
      by_contra hs
      exact (h.answers hr).heard hs (silences_selectStatus hst hdepend hsilent)
    · split
      · exact h.injectPkgfile depend t
      · exact fun v hv hsilent => h.still hv (ht ‹_› hsilent)
  refine (hbody.and (h.keeps_ports _ fun x hx => hs x (List.mem_cons_of_mem _ hx))).mono
    fun x t ht => ?_
  cases x with
  | ret => exact ht.2
  | _ => exact ht.1

theorem distfiles (s : Db) :
    Goes E Over (injectDistfiles l) s ∧ Goes E Over (uploadDistfiles l) s := by
  have each : ∀ {a : String → Action} {files : List String} (s : Db),
      Goes E Over (Prog.forEach files fun file => act (a file)) s :=
    fun s => Outline.forEach (I := fun _ _ => True) (fun _ _ s _ => h.ext_goes _ s)
      (fun _ _ _ _ => trivial) trivial
  exact ⟨(h.sql _ s).seq fun _ t _ => each t, (h.sql _ s).seq fun _ t _ => each t⟩

theorem depends (st : Stmt) (rows : st.Res → List PortRow) {f : st.Res → Magus Unit}
    (hst : ∀ s u x, st.exec s = some (x, u) → ∀ row ∈ rows x, row ∈ u.tree.ports)
    (hf : ∀ x t, (∀ row ∈ rows x, row ∈ t.tree.ports) → Goes E Over (f x) t) (s : Db) :
    Goes E Over (MagusStatements.sql st >>= f) s := by
  refine Outline.seq (Q := fun x t => ∀ row ∈ rows x, row ∈ t.tree.ports)
    (Outline.issue fun t _ => ⟨h.needs _ _, fun x u hr v hv row hrow => h.ports hv ?_,
      fun _ _ hr _ hv => h.heard hr hv⟩) fun x t ht => hf x t ht
  exact hst _ _ _ (effect_exec (h.answers hr).effect) row hrow

theorem injectDepends (hph : l.phase ≠ .fetch) (s : Db) : Goes E Over (injectDepends l) s := by
  have htext : "for " ++ l.phase.text ++ ", but " = scheduled l := by rw [scheduled, if_neg hph]
  unfold MagusWorker.injectDepends
  rw [htext]
  refine h.depends (.selectPhaseDepends l.port (l.phase = .test)) (fun x => x)
    (fun s u x hx row hrow => ?_) (fun x t ht => h.injectAll ht) s
  cases hx
  obtain ⟨d, hd, hdq⟩ := (DependsClosures.mem_phaseDependsClosure hrow).1
  exact reached_mem_ports hd hdq

theorem injectFetchDepends (hph : l.phase = .fetch) (s : Db) :
    Goes E Over (injectFetchDepends l) s := by
  have htext : "to fetch, but fetch dependency " = scheduled l := by rw [scheduled, if_pos hph]
  unfold MagusWorker.injectFetchDepends
  rw [htext]
  refine h.depends (.selectFetchDepends l.port) (fun x => x)
    (fun s u x hx row hrow => ?_) (fun x t ht => h.injectAll ht) s
  cases hx
  exact (mem_fetchDependsClosure hrow).1.mem_ports

theorem runMakePhase (hreset : ∀ s, Finishes E Over (reset l.port.id) s) (s : Db) :
    Finishes E Over (runMakePhase l) s := by
  refine (h.issue _ s).seq fun _ s _ => ?_
  refine Outline.seq (Q := fun w t => ∀ st, w = .done st → st.value = 0 → Over t)
    (Outline.issue fun t _ => ⟨h.needs _ _, fun w u hr v hv st hw hst => h.still hv ?_,
      fun _ _ hr _ hv => h.heard hr hv⟩) fun w t hw => ?_
  · subst hw
    rw [effect_waitpid (h.answers hr).effect]
    exact (h.answers hr).reported hst
  cases w with
  | interrupted =>
    refine (h.issue .waitpidAgain t).seq fun _ t _ => ?_
    exact (hreset t).seq fun _ _ hu v hv => .inr (h.still hv hu)
  | done st =>
    change Outline _ _ (if st.value = 0 then _ else _) t
    split
    · exact h.watched.finished (Uses.bind (Uses.issue (h.reads _).1) fun _ => Uses.pure _) (hw st rfl ‹_›)
    · exact fun _ _ hsilent => absurd hsilent (not_silent_childExited _)

theorem run (hfound : ∀ {s u x}, E.answers s (.sql (.selectLock l)) (.ok x) u → x = false → Over u)
    (hrecord : ∀ error s, Outline E (Ends (fun _ => Over) (fun e t => Matches "DBI" e ∨ Over t)
      (Left Over)) (recordException l error) s)
    (hphase : ∀ s, Finishes E Over (runPhase l) s) (s : Db) :
    Outline E (workerPost Over) (run l) s := by
  refine Outline.tryCatch (M := Ends (S := magus) (fun _ => Over) (Heard Over) (Left Over)) ?_
    (fun _ _ h => h) (fun error t ht => ?_) fun _ _ h => h
  · refine Outline.seq (Q := fun found t => found = false → Over t)
      (Outline.issue fun t _ => ⟨h.needs _ _, fun found u hr v hv hnot => h.still hv (hfound hr hnot),
        fun _ _ hr _ hv => h.heard hr hv⟩) fun found t hfound => ?_
    refine Outline.when (fun _ => ?_) fun hnot v hv => h.still hv (hfound (by simpa using hnot))
    refine Outline.seq (Q := fun _ _ => True) ((h.watched.phaseResult _ _ t).seq fun _ s _ =>
      h.sql _ s) fun _ s _ => ?_
    refine (h.sql _ s).seq fun _ s _ => (hphase s).seq fun _ s hs => h.watched.finished ?_ hs
    exact Uses.bind (phaseResult_uses (h.reads _).2.1 h.rows) fun _ => Uses.issue (h.notes ..)
  · unfold afterException
    split
    · exact fun _ _ => .inl rfl
    split
    · exact fun v hv => h.still hv (ht ⟨‹_›, ‹_›⟩)
    refine Outline.tryCatch (M := Ends (S := magus) (fun _ => Over)
      (fun e t => Matches "DBI" e ∨ Over t) (Left Over)) (hrecord error t) (fun _ _ h => h)
      (fun error' t ht => ?_) fun _ _ h => h
    split
    · exact fun _ _ => .inl rfl
    · exact fun v hv => h.still hv (ht.resolve_left ‹_›)

end Overseen
end Worker

section Child
variable {l : Lock} {kept : Option Op → (Db → Prop) → Prop} {Over : Db → Prop} {M : Op → Prop}

/-- A setting in which other processes keep the assertions of `kept`. Beside the tables
stands whether the last answer was an exception met where it `hurts`. -/
def notingSetting (kept : Option Op → (Db → Prop) → Prop) (hurts : Db → Prop) :
    Setting magus (Db × Prop) where
  rely := fun o s t => (s.2 ↔ t.2) ∧ ∀ P, kept o P → P s.1 → P t.1
  answers := fun s o r u => Effect s.1 o r u.1 ∧ (u.2 ↔ (∃ e, r = .error e) ∧ hurts s.1)
  needs := fun _ _ => True
  rely_refl := fun _ _ => ⟨Iff.rfl, fun _ _ => id⟩
  rely_trans := fun h h' => ⟨h.1.trans h'.1, fun P hP => h'.2 P hP ∘ h.2 P hP⟩

/-- The setting of a make child: an exception met before the phase is over may go unreported. -/
def childSetting (kept : Option Op → (Db → Prop) → Prop) (Over : Db → Prop) :
    Setting magus (Db × Prop) :=
  notingSetting kept fun s => ¬ Over s

def Told (Over : Db → Prop) (t : Db × Prop) : Prop := t.2 ∨ Over t.1

theorem child_watched (h : Steady (childSetting kept Over) Prod.fst Over M) :
    Watched (childSetting kept Over) Prod.fst Over M (fun _ => Told Over) fun _ => Told Over where
  toSteady := h
  raises := by
    intro s st e u v hr hv
    by_cases hs : Over s.1
    · exact .inr (h.stable (by simp) hv (by rwa [hr.1.error]))
    · exact .inl (hv.1.1 (hr.2.2 ⟨⟨e, rfl⟩, hs⟩))
  free := fun _ => trivial
  raised := .inr
  exited := .inr

theorem makeChild_told (h : Steady (childSetting kept Over) Prod.fst Over M)
    (hresults : ∀ results s, Outline (childSetting kept Over)
      (Ends (fun _ t => Over t.1) (fun _ => Told Over) fun _ => Told Over) (insertResults l results) s)
    (hrecord : ∀ error s, Outline (childSetting kept Over)
      (Ends (fun _ t => Over t.1) (fun _ => Told Over) fun _ => Told Over) (recordException l error) s)
    (s : Db × Prop) : Outline (childSetting kept Over) (fun _ => Told Over) (makeChild l) s := by
  have told_rely : ∀ {s t}, (childSetting kept Over).rely none s t → Told Over s → Told Over t :=
    fun hst hs => hs.imp hst.1.1 (h.stable (by simp) hst)
  have goes : ∀ (x : External) (s : Db × Prop), Outline (childSetting kept Over)
      (Ends (fun _ _ => True) (fun _ => Told Over) fun _ => Told Over) (ext x) s := by
    refine fun x s => Outline.issue fun t _ => ⟨trivial, fun _ _ _ _ _ => trivial, fun e u hr v hv =>
      told_rely hv ?_⟩
    by_cases ht : Over t.1
    · exact .inr (by rwa [hr.1.error])
    · exact .inl (hr.2.2 ⟨⟨e, rfl⟩, ht⟩)
  have told : ∀ {q : Magus Unit} {s : Db × Prop}, q.Ended → Told Over s →
      Outline (childSetting kept Over) (fun _ => Told Over) q s := by
    intro q s hq hs
    cases q with
    | call => cases hq
    | _ => exact fun t ht => told_rely ht hs
  refine Outline.bind (M := fun _ => Told Over) ?_ (fun _ s hs => told trivial hs) (fun _ _ h => h)
    fun _ _ h => h
  refine Outline.tryCatch (M := Ends (S := magus) (σ := Db × Prop) (fun _ t => Over t.1)
    (fun _ => Told Over) fun _ => Told Over) ?_ (fun _ _ h => .inr h) (fun error s hs => ?_)
    fun _ _ h => h
  · exact (goes _ s).seq fun _ s _ => (goes (.portTest l.phase) s).seq fun results s _ =>
      hresults results s
  · split
    · exact told trivial hs
    · exact Outline.tryCatch (M := Ends (S := magus) (σ := Db × Prop) (fun _ t => Over t.1)
        (fun _ => Told Over) fun _ => Told Over) (hrecord error s)
        (fun _ _ h => .inr h) (fun _ _ h => told trivial h) fun _ _ h => h

end Child

section Burial
variable {l : Lock} {code : ℕ} {kept : Option Op → (Db → Prop) → Prop} {Over : Db → Prop}
  {M : Op → Prop} {s : Db}

/-- The setting of a burial: when the lock goes the phase is over, whatever the exit code
was, and before that the phase is over or the exit code is 6. -/
def burialSetting (kept : Option Op → (Db → Prop) → Prop) (Over : Db → Prop) (l : Lock) (code : ℕ) :
    Setting magus Db :=
  .keeping kept Effect fun t o => (code = 6 ∨ Over t) ∧ (o = .sql (.deleteLock l) → Over t)

def killerSetting (kept : Option Op → (Db → Prop) → Prop) (Over : Db → Prop) (l : Lock) :
    Setting magus Db :=
  .keeping kept Effect fun t o => o = .sql (.deleteLock l) → Over t

def Buried (Over : Db → Prop) (code : ℕ) (_ : Exit magus Unit) (t : Db) : Prop := code = 6 ∨ Over t

theorem burial_watched (h : Steady (burialSetting kept Over l code) id Over M) (hcode : code = 6) :
    Watched (burialSetting kept Over l code) id Over M (fun _ _ => True) fun _ _ => True where
  toSteady := h
  raises := fun _ _ => trivial
  free := fun ho => ⟨.inl hcode, fun he => absurd he (ho l)⟩
  raised := fun _ => trivial
  exited := fun _ => trivial

theorem killer_watched (h : Steady (killerSetting kept Over l) id Over M) :
    Watched (killerSetting kept Over l) id Over M (fun _ _ => True) fun _ _ => True where
  toSteady := h
  raises := fun _ _ => trivial
  free := fun ho he => absurd he (ho l)
  raised := fun _ => trivial
  exited := fun _ => trivial

theorem processDeadChild_buried (h : Steady (burialSetting kept Over l code) id Over M)
    (hdelete : ∀ {s r u}, Effect s (.sql (.deleteLock l)) r u → Over s → Over u)
    (hsix : code = 6 → ∀ s, Outline (burialSetting kept Over l code)
      (Ends (fun _ => Over) (fun _ _ => True) fun _ _ => True)
      (if l.phase = .build then reset l.port.id
        else setPhaseStatus l.machine l.port.id l.phase .untested) s)
    (hs : code = 6 ∨ Over s) :
    Outline (burialSetting kept Over l code) (Buried Over code) (processDeadChild l code) s := by
  have hgone : ∀ {t : Db}, Over t →
      Outline (burialSetting kept Over l code) (Buried Over code) (sql (.deleteLock l)) t := by
    intro t ht
    refine Outline.issue fun u hu => ?_
    have hover : Over u := h.stable (by simp) hu ht
    exact ⟨⟨.inr hover, fun _ => hover⟩, fun _ v hr w hw => .inr (h.stable (by simp) hw (hdelete hr hover)),
      fun _ v hr w hw => .inr (h.stable (by simp) hw (hdelete hr hover))⟩
  by_cases hcode : code = 6
  · exact Outline.bind (M := Ends (fun _ => Over) (fun _ _ => True) fun _ _ => True)
      (Outline.when (fun _ => hsix hcode s) fun hne => absurd hcode hne) (fun _ t ht => hgone ht)
      (fun _ _ _ => .inl hcode) fun _ _ _ => .inl hcode
  · exact Outline.bind (M := Ends (fun _ => Over) (fun _ _ => False) fun _ _ => False)
      (Outline.when (fun he => absurd he hcode) fun _ t ht =>
        h.stable (by simp) ht (hs.resolve_left hcode))
      (fun _ t ht => hgone ht) (fun _ _ h => h.elim) fun _ _ h => h.elim

theorem killLock_buried (h : Steady (killerSetting kept Over l) id Over M)
    (hreset : ∀ s, Outline (killerSetting kept Over l)
      (Ends (fun _ => Over) (fun _ _ => True) fun _ _ => True) (reset l.port.id) s) :
    Outline (killerSetting kept Over l) (fun _ _ => True) (killLock l) s := by
  refine Outline.bind (hreset s) (fun _ t ht => ?_) (fun _ _ _ => trivial) fun _ _ _ => trivial
  exact Outline.issue fun u hu =>
    ⟨fun _ => h.stable (by simp) hu ht, fun _ _ _ _ _ => trivial, fun _ _ _ _ _ => trivial⟩

end Burial

end Mports.MagusEndings
