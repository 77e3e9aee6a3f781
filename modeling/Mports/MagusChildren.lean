import Mports.MagusHolders

set_option autoImplicit false

namespace Mports.MagusChildren
open MagusTables MagusStatements MagusPort MagusScan MagusWorker MagusFootprint MagusCluster
open StatementPrograms

/-- After a fork comes the wait, and after SIGINT in it the wait of the handler. -/
def Awaits : (o : Op) → Except Exn o.Res → Option Op → Prop
  | .fork _, .ok _, o => o = some .waitpid
  | .waitpid, .ok .interrupted, o => o = some .waitpidAgain
  | _, _, _ => True

theorem awaits_local : Follows.Local (S := magus) Awaits := by
  intro o r h o'
  cases o with
  | fork ph =>
    cases r with
    | ok u => cases h
    | error e => trivial
  | waitpid =>
    cases r with
    | ok w =>
      cases w with
      | done st => trivial
      | interrupted => cases h
    | error e => trivial
  | _ => trivial

def Plain : Op → Prop
  | .sql _ | .ext _ => True
  | _ => False

theorem follows_plain {α : Type} {q : Magus α} (h : Uses Plain (fun _ _ => True) q) :
    Follows (S := magus) Awaits q :=
  Follows.of_uses (P := Plain) (fun o ho r o' => by cases o <;> trivial) h

theorem runMakePhase_follows (l : Lock) : Follows (S := magus) Awaits (runMakePhase l) := by
  have hsql : ∀ s, ResetStmt l.port.id s → Plain (.sql s) := fun _ _ => trivial
  have hreset : Follows (S := magus) Awaits (reset l.port.id >>= fun _ => (Prog.exit 0 : Magus Unit)) :=
    follows_plain (Uses.bind (reset_uses _ hsql) fun _ => Uses.exit _)
  intro r
  refine ⟨?_, ?_⟩
  · cases r with
    | ok u => rfl
    | error e => trivial
  cases r with
  | error e => trivial
  | ok u =>
    intro r
    cases r with
    | error e => exact ⟨trivial, trivial⟩
    | ok waited =>
      cases waited with
      | interrupted =>
        refine ⟨rfl, fun r => ⟨trivial, ?_⟩⟩
        cases r with
        | ok st => exact hreset
        | error e => trivial
      | done st =>
        refine ⟨trivial, ?_⟩
        change Follows (S := magus) Awaits (if st.value = 0 then _ else _)
        split
        · exact follows_plain (Uses.bind (Uses.issue trivial) fun _ => Uses.pure _)
        · trivial

theorem run_follows (l : Lock) : Follows (S := magus) Awaits (run l) := by
  have hsql : ∀ s, OwnStmt l Started s → Plain (.sql s) := fun _ _ => trivial
  have hext : ∀ x, Plain (.ext x) := fun _ => trivial
  have hfiles := distfiles_uses (P := Plain) (A := fun _ _ => True) l hsql hext
  have hdepends : ∀ s : String, ∀ depends, Follows (S := magus) Awaits (injectAll s depends) :=
    fun s depends => follows_plain (injectAll_uses s depends (fun _ => trivial) hext)
  have hissue : ∀ s : Stmt, Follows (S := magus) Awaits (sql s) := fun s => follows_plain (Uses.issue trivial)
  have hact : ∀ a, Follows (S := magus) Awaits (act a) := fun a => follows_plain (Uses.issue trivial)
  have hscp : ∀ c, Follows (S := magus) Awaits (scp c) := fun c => follows_plain (scp_uses trivial)
  have hresult : ∀ p ph, Follows (S := magus) Awaits (phaseResult p ph) :=
    fun p ph => follows_plain (phaseResult_uses trivial trivial)
  have hset : ∀ st, Follows (S := magus) Awaits (setPhaseStatus l.machine l.port.id l.phase st) :=
    fun st => follows_plain (setPhaseStatus_uses trivial trivial trivial)
  have hrecord : ∀ e, Follows (S := magus) Awaits (recordException l e) :=
    fun e => follows_plain (recordException_uses l e (K := Started) (by decide) hsql)
  have hphase : Follows (S := magus) Awaits (runPhase l) := by
    unfold runPhase
    cases hph : l.phase with
    | scan => exact follows_plain (runScanPhase_uses l hph (fun _ _ => trivial) hext)
    | build =>
      refine (hact _).bind awaits_local fun _ => ?_
      refine ((hissue _).bind awaits_local fun _ => hdepends _ _).bind awaits_local fun _ => ?_
      refine (follows_plain hfiles.1).bind awaits_local fun _ => ?_
      refine (runMakePhase_follows l).bind awaits_local fun _ => ?_
      refine (hissue _).bind awaits_local fun st => ?_
      exact follows_plain (Uses.when fun _ => Uses.bind (scp_uses trivial) fun _ => hfiles.2)
    | fetch =>
      refine (hact _).bind awaits_local fun _ => ?_
      refine ((hissue _).bind awaits_local fun _ => hdepends _ _).bind awaits_local fun _ => ?_
      refine (follows_plain hfiles.1).bind awaits_local fun _ => ?_
      refine (runMakePhase_follows l).bind awaits_local fun _ => ?_
      refine (hresult _ _).bind awaits_local fun st => ?_
      exact follows_plain (Uses.when fun _ => hfiles.2)
    | test =>
      refine (hact _).bind awaits_local fun _ => ?_
      refine ((hissue _).bind awaits_local fun _ => hdepends _ _).bind awaits_local fun _ => ?_
      refine (hscp _).bind awaits_local fun _ => ?_
      exact (follows_plain hfiles.1).bind awaits_local fun _ => runMakePhase_follows l
  have hbody : Follows (S := magus) Awaits (runBody l) := by
    refine (hset _).bind awaits_local fun _ => (hissue _).bind awaits_local fun _ => ?_
    refine hphase.bind awaits_local fun _ => ?_
    exact (hresult _ _).bind awaits_local fun _ => hissue _
  refine Follows.tryCatch awaits_local ((hissue _).bind awaits_local fun found => ?_) fun e => ?_
  · unfold Prog.when
    split
    · exact hbody
    · trivial
  · unfold afterException
    split
    · trivial
    · split
      · trivial
      · refine Follows.tryCatch awaits_local (hrecord e) fun e' => ?_
        split <;> trivial

/-- The entry of a make child of `w`, running or not. -/
def ChildOf (proc : Option Proc) (w : Pid) (l : Lock) : Prop :=
  (∃ q, proc = some (.makeChild w l q)) ∨ ∃ st, proc = some (.makeChildExited w l st)

def Links (c : Cluster) : Prop :=
  ∀ pid l q child masked, c.procs pid = some (.worker l q (some child) masked) →
    ChildOf (c.procs child) pid l

namespace Links
variable {c c' : Cluster}

theorem start (db : Db) : Links (Cluster.start db) := fun _ _ _ _ _ h => by cases h

/-- A pid whose entry stays a child's entry, if it was one, and which is linked itself. -/
theorem setProc (h : Links c) {pid : Pid} {new : Option Proc}
    (hkeep : ∀ w l, ChildOf (c.procs pid) w l → ChildOf new w l)
    (hnew : ∀ l q child masked, new = some (.worker l q (some child) masked) →
      ChildOf (Function.update c.procs pid new child) pid l) : Links (c.setProc pid new) := by
  intro w l q child masked hw
  rw [Cluster.setProc_procs] at hw ⊢
  by_cases hpid : w = pid
  · subst hpid
    rw [Function.update_self] at hw
    exact hnew l q child masked hw
  · rw [Function.update_of_ne hpid] at hw
    have hchild := h w l q child masked hw
    by_cases hc : child = pid
    · subst hc
      rw [Function.update_self]
      exact hkeep w l hchild
    · rwa [Function.update_of_ne hc]

theorem worker (h : Links c) {pid : Pid} {l : Lock} {q : Magus Unit} {ch : Option Pid} {m : Bool}
    (hproc : c.procs pid = some (.worker l q ch m)) {n : Option Proc}
    (hnew : ∀ l' q' child m', n = some (.worker l' q' (some child) m') → l' = l ∧ ch = some child) :
    Links (c.setProc pid n) := by
  refine h.setProc (fun w l' hc => ?_) fun l' q' child m' hn => ?_
  · rw [hproc] at hc
    rcases hc with ⟨_, hc⟩ | ⟨_, hc⟩ <;> cases hc
  · obtain ⟨rfl, rfl⟩ := hnew l' q' child m' hn
    have hchild := h pid l' q child m hproc
    have hne : child ≠ pid := by
      rintro rfl
      rw [hproc] at hchild
      rcases hchild with ⟨_, hc⟩ | ⟨_, hc⟩ <;> cases hc
    rwa [Function.update_of_ne hne]

theorem other (h : Links c) {pid : Pid} {new : Option Proc}
    (hold : ∀ w l, ¬ ChildOf (c.procs pid) w l)
    (hnew : ∀ l q child m, new ≠ some (.worker l q (some child) m)) : Links (c.setProc pid new) :=
  h.setProc (fun w l hc => absurd hc (hold w l)) fun l q child m hn => absurd hn (hnew l q child m)

theorem free (h : Links c) {pid : Pid} {new : Option Proc} (hfree : c.procs pid = none)
    (hnew : ∀ l q child m, new ≠ some (.worker l q (some child) m)) : Links (c.setProc pid new) := by
  refine h.other (fun w l hc => ?_) hnew
  rw [hfree] at hc
  rcases hc with ⟨_, hc⟩ | ⟨_, hc⟩ <;> cases hc

theorem removeChild (h : Links c) {pid child : Pid} {l l' : Lock} {q : Magus Unit} {m : Bool}
    {st : WaitStatus} (hproc : c.procs pid = some (.worker l q none m))
    (hchild : c.procs child = some (.makeChildExited pid l' st)) : Links (c.setProc child none) := by
  intro w l₂ q₂ child₂ m₂ hw
  rw [Cluster.setProc_procs, Function.update_apply] at hw
  split at hw
  · cases hw
  have hc := h w l₂ q₂ child₂ m₂ hw
  rw [Cluster.setProc_procs, Function.update_of_ne]
  · exact hc
  rintro rfl
  rw [hchild] at hc
  rcases hc with ⟨_, hc⟩ | ⟨_, hc⟩
  · cases hc
  · cases hc
    rw [hproc] at hw
    cases hw

theorem waited (h : Links c) {pid child : Pid} {l l' : Lock} {q : Magus Unit} {m : Bool}
    {st : WaitStatus} (hproc : c.procs pid = some (.worker l q (some child) m))
    (hchild : c.procs child = some (.makeChildExited pid l' st)) (q' : Magus Unit) :
    Links ((c.setProc pid (some (.worker l q' none m))).setProc child none) := by
  have hne : child ≠ pid := by
    rintro rfl
    rw [hproc] at hchild
    cases hchild
  have hgone : (c.setProc pid (some (.worker l q' none m))).procs child =
      some (.makeChildExited pid l' st) := by
    rwa [Cluster.setProc_procs, Function.update_of_ne hne]
  refine (h.worker hproc (n := some (.worker l q' none m)) ?_).removeChild
    (Function.update_self ..) hgone
  rintro _ _ _ _ he
  cases he

theorem of_procs (h : Links c) (hp : c'.procs = c.procs) : Links c' := by
  unfold Links
  rw [hp]
  exact h

theorem step {e : Event} (h : Links c) (hm : Move c e c') : Links c' := by
  have notChild : ∀ {pid : Pid} {proc : Proc}, c.procs pid = some proc →
      (∀ w l q, proc ≠ .makeChild w l q) → (∀ w l st, proc ≠ .makeChildExited w l st) →
      ∀ w l, ¬ ChildOf (c.procs pid) w l := by
    rintro pid proc hproc h₁ h₂ w l (⟨q, hq⟩ | ⟨st, hst⟩)
    · rw [hproc] at hq
      exact h₁ w l q (by cases hq; rfl)
    · rw [hproc] at hst
      exact h₂ w l st (by cases hst; rfl)
  cases hm with
  | @call pid ch proc o k r db hproc hprog ha =>
    have hdb : Links (c.setDb db) := h.of_procs rfl
    cases proc with
    | worker l q child m =>
      refine hdb.worker hproc ?_
      rintro l' q' child' m' he
      cases he
      exact ⟨rfl, rfl⟩
    | makeChild w l q =>
      refine hdb.setProc (fun w' l' hc => ?_) fun l' q' child' m' he => by cases he
      change ChildOf (c.procs pid) w' l' at hc
      rw [hproc] at hc
      rcases hc with ⟨_, hc⟩ | ⟨_, hc⟩ <;> cases hc
      exact .inl ⟨_, rfl⟩
    | exited | dead | makeChildExited => cases hprog
    | burial | killer | resetPort | index =>
      exact hdb.other (notChild hproc (by simp) (by simp)) (by simp [Proc.withProg])
  | @fork pid child l ph k ch masked hproc hfree =>
    -- the link of the new child is made before the child is entered
    have hne : pid ≠ child := by
      rintro rfl
      rw [hproc] at hfree
      cases hfree
    intro w l' q' child' m' hw
    rw [Cluster.setProc_procs, Cluster.setProc_procs] at hw ⊢
    by_cases hwc : w = child
    · subst hwc
      rw [Function.update_self] at hw
      cases hw
    rw [Function.update_of_ne hwc] at hw
    by_cases hwp : w = pid
    · subst hwp
      rw [Function.update_self] at hw
      cases hw
      rw [Function.update_self]
      exact .inl ⟨_, rfl⟩
    · rw [Function.update_of_ne hwp] at hw
      have hc := h w l' q' child' m' hw
      have h₁ : child' ≠ child := by
        rintro rfl
        rw [hfree] at hc
        rcases hc with ⟨_, hc⟩ | ⟨_, hc⟩ <;> cases hc
      have h₂ : child' ≠ pid := by
        rintro rfl
        rw [hproc] at hc
        rcases hc with ⟨_, hc⟩ | ⟨_, hc⟩ <;> cases hc
      rwa [Function.update_of_ne h₁, Function.update_of_ne h₂]
  | waited hproc hchild | waitedAgain hproc hchild => exact h.waited hproc hchild _
  | interruptWait hproc | interruptWorker hproc hsig =>
    refine h.worker hproc ?_
    rintro _ _ _ _ he
    cases he
    exact ⟨rfl, rfl⟩
  | signalWorker hproc | exitWorker hproc hst =>
    refine h.worker hproc ?_
    rintro _ _ _ _ he
    cases he
  | interruptChild hproc | signalChild hproc | exitChild hproc hst =>
    refine h.setProc (fun w' l' hc => ?_) fun l' q' child' m' he => by cases he
    rw [hproc] at hc
    rcases hc with ⟨_, hc⟩ | ⟨_, hc⟩ <;> cases hc
    first
      | exact .inl ⟨_, rfl⟩
      | exact .inr ⟨_, rfl⟩
  | buried hproc hd | postponed hproc hd | killed hproc hd | killAbandoned hproc hd =>
    exact (h.other (notChild hproc (by simp) (by simp)) (by simp)).of_procs rfl
  | exitReset hproc hst | exitIndex hproc hst | reap hproc | bury hproc hd =>
    exact (h.other (notChild hproc (by simp) (by simp)) (by simp)).of_procs rfl
  | startChild hd hfree | killNext hd hfree => exact (h.free hfree (by simp)).of_procs rfl
  | resetPort hfree | index hfree | indexDepends hfree => exact h.free hfree (by simp)
  | @killChildren machine kid stopped reaped hstop hreap =>
    have hstopped : Links stopped ∧ ∀ k l st, c.procs k = some (.exited l st) →
        stopped.procs k = some (.exited l st) := by
      rcases hstop with ⟨rfl, _⟩ | ⟨pid, l, code, q, _, hproc, rfl⟩
      · exact ⟨h, fun _ _ _ hk => hk⟩
      · refine ⟨h.other (notChild hproc (by simp) (by simp)) (by simp), fun k l st hk => ?_⟩
        rw [Cluster.setProc_procs, Function.update_of_ne]
        · exact hk
        · rintro rfl
          rw [hproc] at hk
          cases hk
    rcases hreap with ⟨_, rfl⟩ | ⟨k, l, st, _, hk, _, rfl⟩
    · exact hstopped.1.of_procs rfl
    · refine (hstopped.1.other ?_ (by simp)).of_procs rfl
      rintro w l' (⟨_, hc⟩ | ⟨_, hc⟩) <;> rw [hstopped.2 k l st hk] at hc <;> cases hc
  | select | insert | duplicate | giveUp | forkFailed | tick => exact h.of_procs rfl

end Links

/-- Every worker forks and waits the way `run_make_phase` does. -/
def Obedient (c : Cluster) : Prop :=
  ∀ pid l q ch masked, c.procs pid = some (.worker l q ch masked) → Follows (S := magus) Awaits q

namespace Obedient
variable {c c' : Cluster}

theorem start (db : Db) : Obedient (Cluster.start db) := fun _ _ _ _ _ h => by cases h

theorem setProc (h : Obedient c) {pid : Pid} {new : Option Proc}
    (hnew : ∀ l q ch m, new = some (.worker l q ch m) → Follows (S := magus) Awaits q) :
    Obedient (c.setProc pid new) := by
  intro w l q ch m hw
  rw [Cluster.setProc_procs, Function.update_apply] at hw
  split at hw
  · exact hnew l q ch m hw
  · exact h w l q ch m hw

theorem of_procs (h : Obedient c) (hp : c'.procs = c.procs) : Obedient c' := by
  unfold Obedient
  rw [hp]
  exact h

theorem answered (h : Obedient c) {pid : Pid} {l : Lock} {o : Op} {k : Except Exn o.Res → Magus Unit}
    {ch : Option Pid} {m : Bool} (hproc : c.procs pid = some (.worker l (.call o k) ch m))
    (r : Except Exn o.Res) (ch' : Option Pid) (m' : Bool) :
    Obedient (c.setProc pid (some (.worker l (k r) ch' m'))) := by
  refine h.setProc ?_
  rintro _ _ _ _ he
  cases he
  exact (h pid l _ ch m hproc r).2

theorem step {e : Event} (h : Obedient c) (hm : Move c e c') : Obedient c' := by
  cases hm with
  | @call pid ch proc o k r db hproc hprog ha =>
    have hdb : Obedient (c.setDb db) := h.of_procs rfl
    cases proc with
    | worker l q child m =>
      cases hprog
      exact hdb.answered hproc r child m
    | _ => exact hdb.setProc (by simp [Proc.withProg])
  | fork hproc hfree => exact (h.answered hproc _ _ _).setProc (by simp)
  | waited hproc hchild | waitedAgain hproc hchild => exact (h.answered hproc _ _ _).setProc (by simp)
  | interruptWait hproc => exact h.answered hproc _ _ _
  | interruptWorker hproc hsig => exact h.answered hproc _ _ _
  | startChild hd hfree =>
    refine (h.setProc ?_).of_procs rfl
    rintro l q ch m he
    cases he
    exact run_follows _
  | buried | postponed | killed | killAbandoned | bury | reap | killNext =>
    exact (h.setProc (by simp)).of_procs rfl
  | interruptChild | signalWorker | signalChild | exitWorker | exitChild | exitReset | exitIndex
  | resetPort | index | indexDepends => exact h.setProc (by simp)
  | killChildren hstop hreap =>
    rcases hstop with ⟨rfl, _⟩ | ⟨pid, l, code, q, _, hproc, rfl⟩ <;>
      rcases hreap with ⟨_, rfl⟩ | ⟨k, l, st, _, hk, _, rfl⟩
    · exact h.of_procs rfl
    · exact (h.setProc (by simp)).of_procs rfl
    · exact (h.setProc (by simp)).of_procs rfl
    · exact ((h.setProc (by simp)).setProc (by simp)).of_procs rfl
  | select | insert | duplicate | giveUp | forkFailed | tick => exact h.of_procs rfl

end Obedient

def Waits (q : Magus Unit) : Prop := q.pending = some .waitpid ∨ q.pending = some .waitpidAgain

def Waiting (c : Cluster) : Prop :=
  ∀ child w l q, c.procs child = some (.makeChild w l q) →
    ∃ q' masked, c.procs w = some (.worker l q' (some child) masked) ∧ Waits q'

/-- The same of every child's entry that counts as `entry`. -/
def Awaited (entry : Option Proc → Pid → Lock → Prop) (c : Cluster) : Prop :=
  ∀ child w l, entry (c.procs child) w l →
    ∃ q masked, c.procs w = some (.worker l q (some child) masked) ∧ Waits q

def Running (proc : Option Proc) (w : Pid) (l : Lock) : Prop := ∃ q, proc = some (.makeChild w l q)

theorem waiting_iff {c : Cluster} : Waiting c ↔ Awaited Running c :=
  ⟨fun h child w l ⟨q, hc⟩ => h child w l q hc, fun h child w l q hc => h child w l ⟨q, hc⟩⟩

/-- Nothing but SIGINT, which has a handler, ends a worker's wait for its make child. -/
def Attended (c : Cluster) : Event → Prop
  | .interrupt pid sig => ∀ l q ch masked, c.procs pid = some (.worker l q ch masked) → Waits q →
      q.pending = some .waitpid ∧ sig = .int
  | .signal pid _ _ => ∀ l q ch masked, c.procs pid = some (.worker l q ch masked) → ¬ Waits q
  | _ => True

section Awaited
variable {entry : Option Proc → Pid → Lock → Prop} {c c' : Cluster}

namespace Awaited

theorem of_procs (h : Awaited entry c) (hp : c'.procs = c.procs) : Awaited entry c' := by
  unfold Awaited
  rw [hp]
  exact h

theorem setProc (h : Awaited entry c) {pid : Pid} {new : Option Proc}
    (hold : ∀ l q ch m, c.procs pid = some (.worker l q ch m) → ¬ Waits q)
    (hnew : ∀ w l, ¬ entry new w l) : Awaited entry (c.setProc pid new) := by
  intro child w l hc
  rw [Cluster.setProc_procs, Function.update_apply] at hc
  split at hc
  · exact absurd hc (hnew w l)
  obtain ⟨q', m, hw, hwait⟩ := h child w l hc
  refine ⟨q', m, ?_, hwait⟩
  rw [Cluster.setProc_procs, Function.update_of_ne]
  · exact hw
  · rintro rfl
    exact hold _ _ _ _ hw hwait

variable (only : ∀ {proc w l}, entry proc w l → ChildOf proc w l)
include only

theorem still (h : Awaited entry c) {pid : Pid} {l : Lock} {q q' : Magus Unit} {ch : Option Pid}
    {m m' : Bool} (hproc : c.procs pid = some (.worker l q ch m)) (hq : Waits q') :
    Awaited entry (c.setProc pid (some (.worker l q' ch m'))) := by
  intro child w l' hc
  rw [Cluster.setProc_procs, Function.update_apply] at hc
  split at hc
  · rcases only hc with ⟨_, hc⟩ | ⟨_, hc⟩ <;> cases hc
  obtain ⟨q₁, m₁, hw, hwait⟩ := h child w l' hc
  by_cases hwp : w = pid
  · subst hwp
    rw [hproc] at hw
    cases hw
    exact ⟨q', m', Function.update_self .., hq⟩
  · refine ⟨q₁, m₁, ?_, hwait⟩
    rwa [Cluster.setProc_procs, Function.update_of_ne hwp]

variable (running : ∀ w l q, entry (some (.makeChild w l q)) w l)
include running

theorem child (h : Awaited entry c) {pid w : Pid} {l : Lock} {q : Magus Unit}
    (hproc : c.procs pid = some (.makeChild w l q)) {new : Option Proc}
    (hnew : ∀ w' l', ChildOf new w' l' → w' = w ∧ l' = l) : Awaited entry (c.setProc pid new) := by
  have hold : ∀ w' l' q₁ ch m, c.procs w' = some (.worker l' q₁ ch m) →
      (c.setProc pid new).procs w' = some (.worker l' q₁ ch m) := by
    intro w' l' q₁ ch m hw
    rw [Cluster.setProc_procs, Function.update_of_ne]
    · exact hw
    · rintro rfl
      rw [hproc] at hw
      cases hw
  intro child w' l' hc
  rw [Cluster.setProc_procs, Function.update_apply] at hc
  split at hc
  · rename_i hpid
    subst hpid
    obtain ⟨rfl, rfl⟩ := hnew _ _ (only hc)
    obtain ⟨q₁, m₁, hw, hwait⟩ := h _ _ _ (hproc ▸ running _ _ _)
    exact ⟨q₁, m₁, hold _ _ _ _ _ hw, hwait⟩
  · obtain ⟨q₁, m₁, hw, hwait⟩ := h child w' l' hc
    exact ⟨q₁, m₁, hold _ _ _ _ _ hw, hwait⟩

omit running in
theorem fork (h : Awaited entry c) (ho : Obedient c) {pid child : Pid} {l : Lock} {ph : Phase}
    {k : Except Exn Unit → Magus Unit} {ch : Option Pid} {m : Bool}
    (hproc : c.procs pid = some (.worker l (.call (.fork ph) k) ch m)) (hfree : c.procs child = none)
    (q : Magus Unit) :
    Awaited entry ((c.setProc pid (some (.worker l (k (.ok ())) (some child) m))).setProc child
      (some (.makeChild pid l q))) := by
  have hne : pid ≠ child := by
    rintro rfl
    rw [hproc] at hfree
    cases hfree
  have hwaits : Waits (k (.ok ())) := .inl (ho pid l _ ch m hproc (.ok ())).1
  intro child' w l' hc
  rw [Cluster.setProc_procs, Cluster.setProc_procs] at hc ⊢
  by_cases hcc : child' = child
  · subst hcc
    rw [Function.update_self] at hc
    rcases only hc with ⟨_, hc⟩ | ⟨_, hc⟩ <;> cases hc
    refine ⟨_, m, ?_, hwaits⟩
    rw [Function.update_of_ne hne, Function.update_self]
  rw [Function.update_of_ne hcc, Function.update_apply] at hc
  split at hc
  · rcases only hc with ⟨_, hc⟩ | ⟨_, hc⟩ <;> cases hc
  obtain ⟨q₁, m₁, hw, hwait⟩ := h child' w l' hc
  refine ⟨q₁, m₁, ?_, hwait⟩
  rw [Function.update_of_ne, Function.update_of_ne]
  · exact hw
  · rintro rfl
    rw [hproc] at hw
    cases hw
    rcases hwait with hwait | hwait <;> cases hwait
  · rintro rfl
    rw [hfree] at hw
    cases hw

omit running in
theorem waited (h : Awaited entry c) {pid child : Pid} {l l' : Lock} {q : Magus Unit} {m : Bool}
    {st : WaitStatus} (hproc : c.procs pid = some (.worker l q (some child) m))
    (hchild : c.procs child = some (.makeChildExited pid l' st)) (q' : Magus Unit) :
    Awaited entry ((c.setProc pid (some (.worker l q' none m))).setProc child none) := by
  intro child' w l₂ hc
  rw [Cluster.setProc_procs, Cluster.setProc_procs] at hc ⊢
  rw [Function.update_apply] at hc
  split at hc
  · rcases only hc with ⟨_, hc⟩ | ⟨_, hc⟩ <;> cases hc
  rename_i hne
  rw [Function.update_apply] at hc
  split at hc
  · rcases only hc with ⟨_, hc⟩ | ⟨_, hc⟩ <;> cases hc
  obtain ⟨q₁, m₁, hw, hwait⟩ := h child' w l₂ hc
  refine ⟨q₁, m₁, ?_, hwait⟩
  rw [Function.update_of_ne, Function.update_of_ne]
  · exact hw
  · rintro rfl
    rw [hproc] at hw
    cases hw
    exact hne rfl
  · rintro rfl
    rw [hchild] at hw
    cases hw

theorem step {e : Event} (h : Awaited entry c) (ho : Obedient c) (hm : Move c e c')
    (ha : Attended c e) : Awaited entry c' := by
  have other : ∀ {pid : Pid} {proc : Proc}, c.procs pid = some proc →
      (∀ l q ch m, proc ≠ .worker l q ch m) →
      ∀ l q ch m, c.procs pid = some (.worker l q ch m) → ¬ Waits q := by
    rintro pid proc hproc hne l q ch m hw
    rw [hproc, Option.some.injEq] at hw
    exact absurd hw (hne l q ch m)
  have free : ∀ {pid : Pid}, c.procs pid = none →
      ∀ l q ch m, c.procs pid = some (.worker l q ch m) → ¬ Waits q := by
    rintro pid hfree l q ch m hw
    rw [hfree] at hw
    cases hw
  have ended : ∀ {pid : Pid} {l : Lock} {q : Magus Unit} {ch : Option Pid} {m : Bool},
      c.procs pid = some (.worker l q ch m) → ¬ Waits q →
      ∀ l' q' ch' m', c.procs pid = some (.worker l' q' ch' m') → ¬ Waits q' := by
    rintro pid l q ch m hproc hq l' q' ch' m' hw
    rw [hproc] at hw
    cases hw
    exact hq
  have uncounted : ∀ {new : Option Proc}, (∀ w l, ¬ ChildOf new w l) → ∀ w l, ¬ entry new w l :=
    fun hnew w l he => hnew w l (only he)
  cases hm with
  | @call pid chosen proc o k r db hproc hprog hans =>
    have hdb : Awaited entry (c.setDb db) := h.of_procs rfl
    cases proc with
    | worker l q child m =>
      cases hprog
      refine hdb.setProc (ended hproc ?_) (uncounted (by simp [ChildOf, Proc.withProg]))
      -- a wait is not answered by the environment
      rintro (hw | hw) <;> cases hw <;> cases chosen <;> cases hans
    | makeChild w l q => exact hdb.child only running hproc (by simp [ChildOf, Proc.withProg])
    | makeChildExited w l st => cases hprog
    | _ => exact hdb.setProc (other hproc (by simp)) (uncounted (by simp [ChildOf, Proc.withProg]))
  | fork hproc hfree => exact h.fork only ho hproc hfree _
  | waited hproc hchild | waitedAgain hproc hchild => exact h.waited only hproc hchild _
  | @interruptWait pid l k ch m hproc =>
    exact h.still only hproc (.inr (ho pid l _ ch m hproc (.ok .interrupted)).1)
  | @interruptWorker pid sig l o k ch m hproc hsig =>
    refine h.setProc (ended hproc fun hw => ?_) (uncounted (by simp [ChildOf]))
    obtain ⟨hpend, rfl⟩ := ha l _ ch m hproc hw
    cases hpend
    exact (hsig rfl).1 rfl
  | interruptChild hproc => exact h.child only running hproc (by simp [ChildOf])
  | signalWorker hproc => exact h.setProc (ended hproc (ha _ _ _ _ hproc)) (uncounted (by simp [ChildOf]))
  | @exitWorker pid l q ch m st hproc hst =>
    refine h.setProc (ended hproc ?_) (uncounted (by simp [ChildOf]))
    intro hw
    cases q with
    | call o k => cases hst
    | _ => rcases hw with hw | hw <;> cases hw
  | signalChild hproc | exitChild hproc hst => exact h.child only running hproc (by simp [ChildOf])
  | buried hproc hd | postponed hproc hd | killed hproc hd | killAbandoned hproc hd =>
    exact (h.setProc (other hproc (by simp)) (uncounted (by simp [ChildOf]))).of_procs rfl
  | reap hproc | bury hproc hd => exact (h.setProc (other hproc (by simp)) (uncounted (by simp [ChildOf]))).of_procs rfl
  | exitReset hproc hst | exitIndex hproc hst => exact h.setProc (other hproc (by simp)) (uncounted (by simp [ChildOf]))
  | startChild hd hfree | killNext hd hfree => exact (h.setProc (free hfree) (uncounted (by simp [ChildOf]))).of_procs rfl
  | resetPort hfree | index hfree | indexDepends hfree => exact h.setProc (free hfree) (uncounted (by simp [ChildOf]))
  | @killChildren machine kid stopped reaped hstop hreap =>
    have hstopped : Awaited entry stopped ∧ ∀ k l st, c.procs k = some (.exited l st) →
        stopped.procs k = some (.exited l st) := by
      rcases hstop with ⟨rfl, _⟩ | ⟨pid, l, code, q, _, hproc, rfl⟩
      · exact ⟨h, fun _ _ _ hk => hk⟩
      · refine ⟨h.setProc (other hproc (by simp)) (uncounted (by simp [ChildOf])), fun k l st hk => ?_⟩
        rw [Cluster.setProc_procs, Function.update_of_ne]
        · exact hk
        · rintro rfl
          rw [hproc] at hk
          cases hk
    rcases hreap with ⟨_, rfl⟩ | ⟨k, l, st, _, hk, _, rfl⟩
    · exact hstopped.1.of_procs rfl
    · refine (hstopped.1.setProc ?_ (uncounted (by simp [ChildOf]))).of_procs rfl
      intro l' q' ch' m' hw
      rw [hstopped.2 k l st hk] at hw
      cases hw
  | select | insert | duplicate | giveUp | forkFailed | tick => exact h.of_procs rfl

end Awaited
end Awaited

namespace Waiting
variable {c c' : Cluster}

theorem start (db : Db) : Waiting (Cluster.start db) := fun _ _ _ _ h => by cases h

theorem step {e : Event} (h : Waiting c) (ho : Obedient c) (hm : Move c e c') (ha : Attended c e) :
    Waiting c' :=
  waiting_iff.2 ((waiting_iff.1 h).step .inl (fun _ _ q => ⟨q, rfl⟩) ho hm ha)

end Waiting
end Mports.MagusChildren
