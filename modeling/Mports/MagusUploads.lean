import Mports.MagusOwnership

set_option autoImplicit false

/-!
Published results and uploaded packages. The make child publishes the result of a
build before its worker uploads the package; what holds again when the build lock is
gone, as long as nothing is reset, killed or silently given up.
-/
namespace Mports.MagusUploads
open MagusTables MagusStatements MagusPort MagusScan MagusWorker
open MagusFootprint MagusEffects MagusCluster MagusHolders MagusChildren MagusTasks MagusConduct
open MagusOwnership StatementPrograms

/-- The answers a worker gets when no signal is about: no command dies of one, and no
text of an exception speaks of one. -/
def Decent : (o : Op) → Except Exn o.Res → Prop
  | .sql _, .error e => Matches "DBI" e
  | .ext (.command _), .ok (st, out) =>
      (∃ code, st = .exited code) ∧ (st.exitcode ≠ 0 → ¬ Silent (scpMessage out))
  | .waitpid, .ok w => w ≠ .interrupted
  | _, .error e => ¬ Silent e
  | _, .ok _ => True

theorem not_silent_of_dbi {e : Exn} (h : Matches "DBI" e) : ¬ Silent e := fun hs => hs.1 h

theorem Decent.not_silent {o : Op} {e : Exn} (h : Decent o (.error e)) : ¬ Silent e := by
  cases o with
  | sql s => exact not_silent_of_dbi h
  | ext x => cases x <;> exact h
  | _ => exact h

def Stored (row : PortRow) (db : Db) : Prop := (db.status row.id).Good → db.PkgfileExists row

def Claim (l : Lock) (db : Db) : Prop := l.phase = .build → db.Locked l → Stored l.port db

/-- Of what the tables hold a build worker counts on, but not while its child works. -/
def Counted (l : Lock) (o : Option Op) (P : Db → Prop) : Prop :=
  (o ≠ some .waitpid ∧ o ≠ some .waitpidAgain) ∧ l.phase = .build ∧
    ((∃ st, P = fun db => db.status l.port.id = st) ∨ P = fun db => db.PkgfileExists l.port)

def uploads : Discipline where
  setting
    | .worker l => Setting.keeping (Counted l) (fun s o r u => Effect s o r u ∧ Decent o r)
        fun _ _ => True
    | .burial l code => Setting.keeping (fun _ P => P = Claim l) Effect
        fun db o => o = .sql (.deleteLock l) → code ≠ 6 → Claim l db
    | .corpse l _ | .hand l => Setting.keeping (fun _ P => P = Claim l) Effect fun _ _ => True
    | _ => Setting.keeping (fun _ _ => False) Effect fun _ _ => True
  post
    | .worker l, x, db => l.phase = .build → x ≠ .exit 6 → Stored l.port db
    | .corpse l code, _, db => code ≠ 6 → Claim l db
    | .burial l code, x, db => (∀ u, x ≠ .ret u) → code ≠ 6 → Claim l db
    | .hand l, _, db => Claim l db
    | _, _, _ => True

section Worker
variable {l : Lock} {db s t u : Db} {o : Op} {α : Type}

abbrev setting (l : Lock) : Setting magus Db := uploads.setting (.worker l)

/-- What leaves the status of the port alone and is no wait for the make child. -/
def Quiet (l : Lock) (o : Op) : Prop :=
  (∀ s, o = .sql s → ¬ WritesStatus l.port.id s) ∧ o ≠ .waitpid ∧ o ≠ .waitpidAgain

theorem quiet_counts (ho : Quiet l o) : some o ≠ some Op.waitpid ∧ some o ≠ some Op.waitpidAgain :=
  ⟨by simpa using ho.2.1, by simpa using ho.2.2⟩

theorem effect_exists {r : Except Exn o.Res} (h : Effect s o r u) {row : PortRow}
    (he : s.PkgfileExists row) : u.PkgfileExists row := by
  rcases h with ⟨ch, ha⟩ | ⟨rfl, _⟩
  · exact answer_pkgfiles ha he
  · exact he

theorem effect_status {r : Except Exn o.Res} (h : Effect s o r u) {p : PortId}
    (ho : ∀ s, o = .sql s → ¬ WritesStatus p s) : u.status p = s.status p := by
  rcases h with ⟨ch, ha⟩ | ⟨rfl, _⟩
  · exact answer_status ha ho
  · rfl

theorem rely_status {o : Option Op} (hb : l.phase = .build)
    (ho : o ≠ some .waitpid ∧ o ≠ some .waitpidAgain) (h : (setting l).rely o s t) :
    t.status l.port.id = s.status l.port.id :=
  h _ ⟨ho, hb, .inl ⟨_, rfl⟩⟩ rfl

theorem rely_exists {o : Option Op} (hb : l.phase = .build)
    (ho : o ≠ some .waitpid ∧ o ≠ some .waitpidAgain) (h : (setting l).rely o s t)
    (he : s.PkgfileExists l.port) : t.PkgfileExists l.port :=
  h _ ⟨ho, hb, .inr rfl⟩ he

theorem rely_stored {o : Option Op} (hb : l.phase = .build)
    (ho : o ≠ some .waitpid ∧ o ≠ some .waitpidAgain) (h : (setting l).rely o s t)
    (hs : Stored l.port s) : Stored l.port t := by
  intro hgood
  rw [rely_status hb ho h] at hgood
  exact rely_exists hb ho h (hs hgood)

theorem quiet_stored {q : Magus α} (hb : l.phase = .build)
    (hq : Uses (S := magus) (Quiet l) (fun _ _ => True) q) (hs : Stored l.port db) :
    Outline (setting l) (fun _ u => Stored l.port u) q db := by
  refine Outline.of_uses (fun o s t hP hs hst => rely_stored hb ?_ hst hs)
    (fun o s ho hs => ⟨trivial, fun r u hr => ⟨trivial, ?_⟩⟩) hq hs
  · cases o with
    | none => simp
    | some o => exact quiet_counts (hP o rfl)
  · intro hgood
    rw [effect_status hr.1 ho.1] at hgood
    exact effect_exists hr.1 (hs hgood)

theorem quiet_sql {s : Stmt} (h : ¬ WritesStatus l.port.id s) : Quiet l (.sql s) :=
  ⟨fun s' hs => by cases hs; exact h, by simp, by simp⟩

theorem quiet_ext (x : External) : Quiet l (.ext x) := ⟨by simp, by simp, by simp⟩

section Quiet
variable {A : (o : Op) → Except Exn o.Res → Prop}

theorem setPhaseStatus_quiet (ph : Phase) (st : Status) :
    Uses (S := magus) (Quiet l) A (setPhaseStatus l.machine l.port.id ph st) :=
  setPhaseStatus_uses (quiet_sql id) (quiet_sql id) (quiet_sql id)

theorem phaseStatus_quiet (ph : Phase) :
    Uses (S := magus) (Quiet l) A (phaseStatus l.port.id ph) :=
  phaseResult_uses (quiet_sql id) (quiet_sql id)

theorem noteEvent_quiet (ph : Phase) (type msg name : String) :
    Uses (S := magus) (Quiet l) A (noteEvent l.machine l.port.id type msg ph name) :=
  Uses.issue (quiet_sql id)

theorem inject_quiet : Uses (S := magus) (Quiet l) A (injectDepends l) ∧
    Uses (S := magus) (Quiet l) A (injectDistfiles l) :=
  ⟨Uses.bind (Uses.issue (quiet_sql id)) fun _ =>
      injectAll_uses _ _ (fun _ => quiet_sql id) fun _ => quiet_ext _,
    Uses.bind (Uses.issue (quiet_sql id)) fun _ => Uses.forEach fun _ _ => Uses.issue (quiet_ext _)⟩

end Quiet

/-- What the body of a build worker leaves: an exception that would be passed over in
silence comes only where the package is stored. -/
def BodyPost (l : Lock) (x : Exit magus α) (u : Db) : Prop :=
  match x with
  | .ret _ => Stored l.port u
  | .raise e => Silent e → Stored l.port u
  | .exit _ => Stored l.port u

def Loud (Q : α → Db → Prop) (x : Exit magus α) (u : Db) : Prop :=
  match x with
  | .ret a => Q a u
  | .raise e => ¬ Silent e
  | .exit _ => False

theorem issue_loud (o : Op) {Q : o.Res → Db → Prop} (hQ : ∀ t r u, Effect t o (.ok r) u → Decent o (.ok r) →
    ∀ v, (setting l).rely none u v → Q r v) :
    Outline (setting l) (Loud Q) (Prog.issue (S := magus) o) db :=
  Outline.issue fun t _ => ⟨trivial, fun r u hr v hv => hQ t r u hr.1 hr.2 v hv,
    fun _ _ hr _ _ => hr.2.not_silent⟩

theorem runMakePhase_loud :
    Outline (setting l) (Loud fun _ _ => True) (runMakePhase l) db := by
  refine (issue_loud (.fork l.phase) (Q := fun _ _ => True) fun _ _ _ _ _ _ _ => trivial).bind
    (fun _ t _ => ?_) (fun _ _ h => h) fun _ _ h => h
  refine (issue_loud .waitpid (Q := fun w _ => w ≠ .interrupted) fun _ _ _ _ hw _ _ => hw).bind
    (fun w t hw => ?_) (fun _ _ h => h) fun _ _ h => h
  cases w with
  | interrupted => exact absurd rfl hw
  | done st =>
    change Outline _ _ (if st.value = 0 then _ else _) t
    split
    · exact (issue_loud (.sql (.selectStatus _)) (Q := fun _ _ => True) fun _ _ _ _ _ _ _ => trivial).bind
        (fun _ _ _ _ _ => trivial) (fun _ _ h => h) fun _ _ h => h
    · exact fun _ _ => not_silent_childExited _

theorem uploadPkgfile_loud (hb : l.phase = .build) :
    Outline (setting l) (Loud fun _ u => u.PkgfileExists l.port) (uploadPkgfile l.port) db := by
  refine Outline.bind (M := Loud fun x u => (x.1 = 0 → u.PkgfileExists l.port) ∧
    (x.1 ≠ 0 → ¬ Silent (scpMessage x.2))) ?_ (fun x t hx => ?_) (fun _ _ h => h) fun _ _ h => h
  · refine (issue_loud (.ext (.command (.copyOut l.port)))
      (Q := fun x u => (x.1.exitcode = 0 → u.PkgfileExists l.port) ∧
        (x.1.exitcode ≠ 0 → ¬ Silent (scpMessage x.2))) ?_).bind (fun x t hx v hv => ?_)
      (fun _ _ h => h) fun _ _ h => h
    · rintro t ⟨st, out⟩ u hu ⟨⟨code, rfl⟩, hsilent⟩ v hv
      refine ⟨fun hcode => ?_, hsilent⟩
      refine rely_exists hb (by simp) hv ?_
      rcases hu with ⟨ch, ha⟩ | ⟨_, hno⟩
      · rcases answer_ext ha with ⟨y, hy, hrun⟩ | ⟨_, _, he, _⟩
        · cases hy
          cases ch with
          | command st' out' =>
            have hzero : code = 0 := Fin.ext (by simpa using hcode)
            simp only [External.run, Command.run, Option.map_some, Option.some.injEq,
              Prod.mk.injEq] at hrun
            obtain ⟨⟨rfl, _⟩, rfl⟩ := hrun
            rw [if_pos (congrArg WaitStatus.exited hzero)]
            exact List.mem_cons_self
          | _ => cases hrun
        · cases he
      · exact absurd rfl (hno _ (.inr ⟨_, rfl⟩))
    · exact ⟨fun h => rely_exists hb (by simp) hv (hx.1 h), hx.2⟩
  · refine Outline.when (fun hne => fun _ _ => hx.2 hne) fun hz => fun v hv => ?_
    exact rely_exists hb (by simp) hv (hx.1 (by simpa using hz))

theorem quiet_then {β : Type} {q : Magus β} {f : β → Magus α} (hb : l.phase = .build)
    (hq : Uses (S := magus) (Quiet l) (fun _ _ => True) q) (hs : Stored l.port db)
    (hf : ∀ a t, Stored l.port t → Outline (setting l) (BodyPost l) (f a) t) :
    Outline (setting l) (BodyPost l) (q >>= f) db :=
  (quiet_stored hb hq hs).bind hf (fun _ _ h _ => h) fun _ _ h => h

theorem loud_then {β : Type} {q : Magus β} {f : β → Magus α} {Q : β → Db → Prop}
    (hq : Outline (setting l) (Loud Q) q db)
    (hf : ∀ a t, Q a t → Outline (setting l) (BodyPost l) (f a) t) :
    Outline (setting l) (BodyPost l) (q >>= f) db :=
  hq.bind hf (fun _ _ h hs => absurd hs h) fun _ _ h => h.elim

theorem quiet_body {q : Magus α} (hb : l.phase = .build)
    (hq : Uses (S := magus) (Quiet l) (fun _ _ => True) q) (hs : Stored l.port db) :
    Outline (setting l) (BodyPost l) q db := by
  refine (quiet_stored hb hq hs).mono fun x t h => ?_
  cases x with
  | raise e => exact fun _ => h
  | _ => exact h

theorem selectStatus_loud (hb : l.phase = .build) : Outline (setting l)
    (Loud fun st u => u.status l.port.id = st) (sql (.selectStatus l.port.id)) db := by
  refine issue_loud (.sql (.selectStatus l.port.id)) fun t r u hu _ v hv => ?_
  rw [rely_status hb (by simp) hv]
  rcases hu with ⟨ch, ha⟩ | ⟨_, hno⟩
  · rcases answer_sql ha with ⟨x, hx, hexec⟩ | ⟨_, _, he, _⟩
    · cases hx
      cases hexec
      rfl
    · cases he
  · exact absurd rfl (hno _ (.inl ⟨_, rfl⟩))

theorem buildPhase_body (hb : l.phase = .build) (hs : Stored l.port db) :
    Outline (setting l) (BodyPost l) (buildPhase l) db := by
  refine quiet_then hb inject_quiet.1 hs fun _ t hs => ?_
  refine quiet_then hb inject_quiet.2 hs fun _ t hs => ?_
  refine loud_then runMakePhase_loud fun _ t _ => ?_
  refine loud_then (selectStatus_loud hb) fun st t hst => Outline.when (fun _ => ?_) fun hbad => ?_
  · refine loud_then (uploadPkgfile_loud hb) fun _ t hexists => ?_
    refine quiet_body hb (Uses.bind (Uses.issue (quiet_sql id)) fun _ => Uses.forEach fun _ _ =>
      Uses.issue (quiet_ext _)) fun _ => hexists
  · intro u hu
    exact rely_stored hb (by simp) hu fun hgood => absurd (hst ▸ hgood) hbad

theorem runBody_body (hb : l.phase = .build) (hs : Stored l.port db) :
    Outline (setting l) (BodyPost l) (runBody l) db := by
  refine quiet_then hb (setPhaseStatus_quiet _ _) hs fun _ t hs => ?_
  refine quiet_then hb (noteEvent_quiet _ _ _ _) hs fun _ t hs => ?_
  have hphase : Outline (setting l) (BodyPost l) (runPhase l) t := by
    unfold runPhase
    split
    · simp_all
    · exact quiet_then hb (Uses.issue (quiet_ext _)) hs fun _ t hs => buildPhase_body hb hs
    · simp_all
    · simp_all
  refine hphase.bind (fun _ t hs => ?_) (fun _ _ h => h) fun _ _ h => h
  exact quiet_body hb (Uses.bind (phaseStatus_quiet _) fun _ => noteEvent_quiet _ _ _ _) hs

theorem recordException_stored (hb : l.phase = .build) (e : Exn) : Outline (setting l) (fun
      | .ret _, u => Stored l.port u
      | .raise e', u => Matches "DBI" e' ∨ Stored l.port u
      | .exit _, u => Stored l.port u) (recordException l e) db := by
  simp only [recordException, hb, if_true]
  refine Outline.bind (M := fun
      | .ret _, u => Stored l.port u
      | .raise e', _ => Matches "DBI" e'
      | .exit _, _ => False) ?_ (fun _ t hs => ?_) (fun _ _ h => .inl h) fun _ _ h => h.elim
  · refine Outline.issue fun t _ => ⟨trivial, fun r u hr v hv => ?_, fun _ _ hr _ _ => hr.2⟩
    refine rely_stored hb (by simp) hv fun hgood => absurd hgood ?_
    rcases hr.1 with ⟨ch, ha⟩ | ⟨_, hno⟩
    · rcases answer_sql ha with ⟨x, hx, hexec⟩ | ⟨_, _, he, _⟩
      · cases hexec
        simpa using Status.not_good_internal
      · cases he
    · exact absurd rfl (hno _ (.inl ⟨_, rfl⟩))
  · refine (quiet_stored hb (Uses.bind (setPhaseStatus_quiet _ _) fun _ =>
      noteEvent_quiet _ _ _ _) hs).mono fun x u h => ?_
    cases x with
    | raise => exact .inr h
    | _ => exact h

theorem run_stored (hs : l.phase = .build → Stored l.port db) :
    uploads.Holds (.worker l) (run l) db := by
  by_cases hb : l.phase = .build
  swap
  · exact Outline.trivial (fun _ _ => trivial) (fun _ _ h => absurd h hb) _ _
  refine Outline.tryCatch (M := BodyPost l) ?_ (fun _ _ h _ _ => h) (fun e t h => ?_)
    fun _ _ h _ _ => h
  · refine quiet_then hb (Uses.issue (quiet_sql id)) (hs hb) fun found t hs => ?_
    exact Outline.when (fun _ => runBody_body hb hs) fun _ u hu => rely_stored hb (by simp) hu hs
  · unfold afterException
    split
    · exact fun _ _ _ hne => absurd rfl hne
    rename_i hdbi
    split
    · rename_i hsignal
      exact fun u hu _ _ => rely_stored hb (by simp) hu (h ⟨hdbi, hsignal⟩)
    · refine (recordException_stored hb e).tryCatch (fun _ _ h _ _ => h) (fun e' u h => ?_)
        fun _ _ h _ _ => h
      split
      · exact fun _ _ _ hne => absurd rfl hne
      · rename_i hdbi'
        exact fun v hv _ _ => rely_stored hb (by simp) hv (h.resolve_left hdbi')

end Worker

theorem processDeadChild_claim {l : Lock} {code : ℕ} {db : Db} (h : code ≠ 6 → Claim l db) :
    uploads.Holds (.burial l code) (processDeadChild l code) db := by
  by_cases hcode : code = 6
  · exact Outline.trivial (fun _ _ _ hne => absurd hcode hne) (fun _ _ _ hne => absurd hcode hne) _ _
  have hclaim : ∀ {o s t}, (uploads.setting (.burial l code)).rely o s t → Claim l s → Claim l t :=
    fun hst hs => hst _ rfl hs
  have hprog : processDeadChild l code = sql (.deleteLock l) := by
    unfold processDeadChild Prog.when
    rw [if_neg hcode]
    rfl
  rw [hprog]
  refine Outline.issue fun t ht => ⟨fun _ _ => hclaim ht (h hcode), fun _ _ _ _ _ hne => ?_,
    fun e u hr v hv _ _ => ?_⟩
  · exact absurd rfl (hne _)
  · rw [Effect.error hr] at hv
    exact hclaim hv (hclaim ht (h hcode))

def Harmless : Choice → Prop
  | .fail e => ¬ Silent e
  | .command st out => (∃ code, st = .exited code) ∧ (st.exitcode ≠ 0 → ¬ Silent (scpMessage out))
  | _ => True

/-- No reset, no killed process, no indexing, no signal. Any statement may still fail. -/
def Undisturbed (c : Cluster) : Event → Prop
  | .call pid ch => ∀ l q, task c (.inl pid) = some (.worker l, q) → Harmless ch
  | .bury pid => ∀ l, task c (.inl pid) = some (.corpse l 6, .ret ()) → l.phase ≠ .build
  | .interrupt _ _ | .signal _ _ _ | .killChildren _ _ | .resetPort _ _ | .index _ _ _ _
  | .indexDepends _ _ _ _ => False
  | _ => True

def Unreset (c : Cluster) : Prop := ∀ x k q, task c x = some (k, q) →
  (∀ p, k ≠ .resetPort p ∧ k ≠ .index p) ∧ ∀ l, k = .burial l 6 → l.phase ≠ .build

theorem Unreset.step {c c' : Cluster} {e : Event} (h : Unreset c) (links : Links c)
    (hm : Move c e c') (hu : Undisturbed c e) : Unreset c' := by
  intro x k q ht
  rcases accounted links hm x _ ht with ⟨hold, _⟩ | hb
  · exact h x k q hold
  generalize c'.db = db at hb
  cases hb with
  | answered hold how => exact h _ _ _ hold
  | @buried pid l code hold =>
    refine ⟨by simp, fun l' hl => ?_⟩
    cases hl
    exact hu l hold
  | resetting | indexing | indexingDepends => exact hu.elim
  | _ => exact ⟨by simp, by simp⟩

theorem Undisturbed.tame {c : Cluster} {e : Event} (h : Undisturbed c e) :
    Tame (fun _ => False) True c e := by
  cases e with
  | interrupt | signal | killChildren => exact h.elim
  | _ => exact ⟨trivial, trivial, trivial, fun _ _ _ he => by cases he⟩

def Rooted (c : Cluster) : Prop := ∀ x k q, task c x = some (k, q) →
  (∀ l, k.lock = some l → l.port ∈ c.db.tree.ports) ∧
    ∀ row ph, k = .picked row ph → row ∈ c.db.tree.ports

theorem moved_ports {c c' : Cluster} {e : Event} (hm : Move c e c') :
    c.db.tree.ports ⊆ c'.db.tree.ports := by
  obtain ⟨y, hmoved⟩ := moved hm
  generalize c'.db = db at hmoved
  cases hmoved with
  | call _ ha => exact answer_ports ha
  | _ => exact fun _ h => h

theorem Rooted.step {c c' : Cluster} {e : Event} (h : Rooted c) (links : Links c)
    (hm : Move c e c') : Rooted c' := by
  intro x k q ht
  refine ⟨fun l hl => moved_ports hm ?_, fun row ph hk => moved_ports hm ?_⟩
  · rcases lock_before links hm ht hl with ⟨y, k₀, q₀, hold, hl₀⟩ | ⟨machine, row, ph, _, hd, _, rfl⟩
    · exact (h y k₀ q₀ hold).1 l hl₀
    · exact (h _ _ _ (task_daemon hd)).2 row ph rfl
  · subst hk
    rcases accounted links hm x _ ht with ⟨hold, _⟩ | hb
    · exact (h x _ q hold).2 row ph rfl
    generalize c'.db = db at hb
    generalize hk : (Kind.picked row ph, q).1 = k at hb
    cases hb with
    | answered hold how =>
      subst hk
      exact (h _ _ _ hold).2 row ph rfl
    | selected hsel =>
      cases hk
      exact hsel.ready.1
    | _ => cases hk

/-- In every undisturbed run: a port with a package and without a build lock has its
package file uploaded. -/
structure Published (c : Cluster) : Prop where
  orderly : Orderly (fun _ => False) True c
  unreset : Unreset c
  rooted : Rooted c
  sound : uploads.Sound c
  stored : ∀ row ∈ c.db.tree.ports, c.db.lock row.id .build = none → Stored row c.db

namespace Published
variable {c c' : Cluster} {e : Event}

theorem start {db : Db} (free : ∀ p ph, db.lock p ph = none)
    (stored : ∀ row ∈ db.tree.ports, Stored row db) : Published (Cluster.start db) where
  orderly := .start free
  unreset := by
    intro x k q h
    cases x <;> cases h
  rooted := by
    intro x k q h
    cases x <;> cases h
  sound := .start db
  stored := fun row hrow _ => stored row hrow

theorem status_writer (h : Published c) {pid : Pid} {k : Kind} {o : Op}
    {κ : Except Exn o.Res → Magus Unit} {ch : Choice} {r : Except Exn o.Res} {db : Db} {p : PortId}
    (ht : task c (.inl pid) = some (k, .call o κ)) (ha : answer c.db o ch = some (r, db))
    (hne : db.status p ≠ c.db.status p) :
    ∃ l, (k = .worker l ∨ k = .makeChild l) ∧ l.port.id = p ∧ l.phase = .build ∧ c.db.Locked l := by
  have hop := h.orderly.regular.conduct.op ht
  rcases MagusConduct.status_writer h.orderly.regular.conduct ht ha hne with ⟨l, hl, hp, hph⟩ | rfl |
    ⟨q, rfl⟩
  · refine ⟨l, ?_, hp, hph, ?_⟩
    · cases k with
      | worker | makeChild =>
        cases hl
        simp
      | burial l code =>
        cases hl
        cases o with
        | sql s =>
          rcases hop with rfl | ⟨rfl, _⟩
          · exact absurd (answer_status ha (by rintro s ⟨rfl⟩; exact id)) hne
          · exact absurd hph ((h.unreset _ _ _ ht).2 l rfl)
        | _ => cases hop
      | _ => first | cases hop | cases hl
    · refine h.orderly.locked ht ?_ (by simp)
      cases k with
      | worker | makeChild | hand =>
        cases hl
        rfl
      | corpse | burial =>
        cases hl
        exact ⟨trivial, rfl⟩
      | _ => cases hl
  · exfalso
    cases k with
    | worker l =>
      rcases hop with hop | ⟨hop, _⟩
      · exact hop.2.2.1 rfl
      · exact hop
    | makeChild l => exact hop.2.2.1.1 rfl
    | burial l code =>
      rcases hop with hop | ⟨rfl, hop⟩
      · cases hop
      · rw [if_neg ((h.unreset _ _ _ ht).2 l rfl)] at hop
        exact (h.unreset _ _ _ ht).2 l rfl hop.2.1
    | killer l => exact (h.orderly.quiet trivial).killer _ _ _ ht
    | resetPort q => exact ((h.unreset _ _ _ ht).1 q).1 rfl
    | index q => exact ((h.unreset _ _ _ ht).1 q).2 rfl
    | _ => cases hop
  · exact absurd rfl ((h.unreset _ _ _ ht).1 q).2

/-- What others do leaves the status of a locked port alone, unless a worker waits for
its make child. -/
theorem status_frame (h : Published c) {x : Owner} {k : Kind} {q : Magus Unit} {l : Lock} {db : Db}
    (ht : task c x = some (k, q)) (hl : k.lock = some l) (hlocked : c.db.Locked l)
    (hb : l.phase = .build) (hi : Interferes c e x db) (hwait : k = .worker l → ¬ Waits q)
    (hchild : k ≠ .makeChild l) : db.status l.port.id = c.db.status l.port.id := by
  obtain ⟨y, hne, hmoved⟩ := hi
  cases hmoved with
  | @call pid k' o κ ch r db hcall ha =>
    by_contra hchanged
    obtain ⟨l', hk', hp, hph, hlocked'⟩ := h.status_writer hcall ha hchanged
    have hid : l.id = l'.id := by
      unfold Db.Locked at hlocked hlocked'
      rw [hp, hph, ← hb, hlocked] at hlocked'
      exact Option.some.inj hlocked'
    have hl' : k'.lock = some l' := by rcases hk' with rfl | rfl <;> rfl
    have hxy : x ≠ .inl pid := fun he => hne (he ▸ rfl)
    rcases paired h.orderly.regular.ids h.orderly.waiting ht hcall hxy hl hl' hid with
      ⟨hk, _⟩ | ⟨hk, hwaits, _⟩
    · exact hchild hk
    · exact hwait hk hwaits
  | _ => rfl

theorem moved_exists {y : Option Owner} {db : Db} (hm : Moved c e y db) {row : PortRow}
    (he : c.db.PkgfileExists row) : db.PkgfileExists row := by
  cases hm with
  | call _ ha => exact answer_pkgfiles ha he
  | _ => exact he

theorem locked_before {y : Option Owner} {db : Db} (hm : Moved c e y db) {l : Lock}
    (hn : Names c.db l) (hl : db.Locked l) : c.db.Locked l := by
  obtain ⟨row, hrow, hid⟩ := Option.map_eq_some_iff.1 hl
  refine Option.map_eq_some_iff.2 ⟨row, ?_, hid⟩
  cases hm with
  | call _ ha => exact answer_lock_sub ha hrow
  | insert _ _ =>
    change put c.db.lock _ _ _ _ _ = some row at hrow
    rw [put_apply] at hrow
    split at hrow
    · cases hrow
      exact absurd hid (Nat.ne_of_gt hn.1)
    · exact hrow
  | _ => exact hrow

theorem claim_frame (h : Published c) {x : Owner} {k : Kind} {q : Magus Unit} {l : Lock} {db : Db}
    (ht : task c x = some (k, q)) (hl : k.lock = some l) (hk : k ≠ .worker l ∧ k ≠ .makeChild l)
    (hi : Interferes c e x db) (hs : Claim l c.db) : Claim l db := by
  intro hb hlocked
  obtain ⟨y, _, hmoved⟩ := id hi
  have hbefore := locked_before hmoved (named h.orderly.regular.ids h.orderly.waiting ht hl) hlocked
  have hstatus := h.status_frame ht hl hbefore hb hi (fun he => absurd he hk.1) hk.2
  exact fun hgood => moved_exists hmoved (hs hb hbefore (hstatus ▸ hgood))

theorem decent {x : Owner} {l : Lock} {o : Op} {κ : Except Exn o.Res → Magus Unit}
    {r : Except Exn o.Res} {db : Db} (ht : task c x = some (.worker l, .call o κ))
    (how : Answered c e db x (.worker l) o r) (hu : Undisturbed c e) : Decent o r := by
  cases how with
  | @chosen pid ch _ _ _ _ ha =>
    have hch := hu l _ ht
    cases o with
    | sql s =>
      rcases answer_sql ha with ⟨y, rfl, _⟩ | ⟨_, _, rfl, hdbi, _⟩
      · trivial
      · exact hdbi
    | ext y =>
      rcases answer_ext ha with ⟨z, rfl, hrun⟩ | ⟨_, rfl, rfl, _⟩
      · cases y with
        | command cmd =>
          cases ch with
          | command st out =>
            obtain ⟨_, _, he⟩ := Option.map_eq_some_iff.1 hrun
            cases he
            exact hch
          | _ => cases hrun
        | _ => trivial
      · cases y <;> exact hch
    | fork ph =>
      cases ch with
      | fail e' =>
        cases ha
        exact hch
      | _ => cases ha
    | waitpid => cases ch <;> cases ha
    | waitpidAgain => cases ch <;> cases ha
  | forked => trivial
  | waited => exact Waited.noConfusion
  | waitedAgain => trivial
  | handled => exact hu.elim
  | raised => exact hu.elim

theorem sound_step (h : Published c) (hm : Move c e c') (hu : Undisturbed c e) :
    uploads.Sound c' := by
  refine h.sound.step h.orderly.regular.links hm (fun db x k q ht hi => ?_) fun db x k q hb => ?_
  · obtain ⟨y, _, hmoved⟩ := id hi
    cases k with
    | worker l =>
      rintro P ⟨⟨hw, hw'⟩, hb, ⟨st, rfl⟩ | rfl⟩ hs
      · have hlocked := h.orderly.locked ht (show Owns True _ l from rfl) (by simp)
        have hframe := h.status_frame ht rfl hlocked hb hi
          (fun _ hwaits => hwaits.elim hw hw') (by simp)
        exact hframe.trans hs
      · exact moved_exists hmoved hs
    | corpse l code | burial l code | hand l =>
      rintro P rfl hs
      exact h.claim_frame ht rfl ⟨by simp, by simp⟩ hi hs
    | _ => exact fun P hP => hP.elim
  have ended : ∀ {k : Kind} {l : Lock}, (k = .worker l) → ∀ {pid : Pid} {q : Magus Unit},
      task c (.inl pid) = some (k, q) → ∀ st, Cluster.exitStatus q = some st → st.exitcode ≠ 6 →
      l.phase = .build → Stored l.port c.db := by
    rintro k l rfl pid q ht st hst hcode hb
    have hs := h.sound _ _ _ ht
    cases q with
    | call o κ => cases hst
    | ret u => exact hs.ended_ret hb (by simp)
    | raise e' => exact hs.ended_raise hb (by simp)
    | exit code =>
      cases hst
      refine hs.ended_exit hb fun he => hcode ?_
      cases he
      rfl
  have corpse : ∀ {l : Lock} {code : ℕ} {db : Db}, (code ≠ 6 → Claim l db) →
      uploads.Holds (.corpse l code) (.ret ()) db := fun hs t ht hcode => ht _ rfl (hs hcode)
  cases hb with
  | @answered _ _ _ k o κ r ht how =>
    cases k with
    | worker l => exact (h.sound _ _ _ ht).answer ⟨how.effect, decent ht how hu⟩
    | _ => exact (h.sound _ _ _ ht).answer how.effect
  | workerEnded ht hst =>
    exact corpse fun hcode hb _ => ended rfl ht _ hst hcode hb
  | postponed ht => exact corpse fun hcode => (h.sound _ _ _ ht).ended_raise (by simp) hcode
  | started ht =>
    have hclaim := (h.sound _ _ _ ht).ended_ret
    exact run_stored fun hb => hclaim hb (h.orderly.locked ht (show Owns True _ _ from rfl) (by simp))
  | buried ht => exact processDeadChild_claim fun hcode => (h.sound _ _ _ ht).ended_ret hcode
  | @inserted machine row ph ht hfree =>
    refine fun t ht' => ht' _ rfl ?_
    rintro hph -
    cases hph
    exact h.stored row ((h.rooted _ _ _ ht).2 row .build rfl) hfree
  | workerSignaled | childSignaled | abandoned | resetting | indexing | indexingDepends => exact hu.elim
  | killing hd => exact absurd (.inl ⟨_, hd⟩) ((h.orderly.quiet trivial).daemon _)
  | forked | childEnded | selected => exact Outline.trivial (fun _ _ => trivial) (fun _ _ => trivial) _ _

theorem stored_step (h : Published c) (hm : Move c e c') :
    ∀ row ∈ c'.db.tree.ports, c'.db.lock row.id .build = none → Stored row c'.db := by
  intro row hrow hfree
  obtain ⟨y, hmoved⟩ := moved hm
  generalize c'.db = db at hmoved hrow hfree
  have keep : c.db.lock row.id .build = none → row ∈ c.db.tree.ports →
      (db.status row.id = c.db.status row.id) → Stored row db := by
    intro hbefore hmem hstatus hgood
    exact moved_exists hmoved (h.stored row hmem hbefore (hstatus ▸ hgood))
  cases hmoved with
  | insert ht _ =>
    refine keep ?_ hrow rfl
    change put c.db.lock _ _ _ row.id .build = none at hfree
    rw [put_apply] at hfree
    split at hfree
    · cases hfree
    · exact hfree
  | @call pid k o κ ch r db ht ha =>
    rw [tree_writer h.orderly.regular.conduct ht ha fun q hq => ((h.unreset _ _ _ ht).1 q).2 hq] at hrow
    cases hlock : c.db.lock row.id .build with
    | none =>
      refine keep hlock hrow ?_
      by_contra hchanged
      obtain ⟨l, _, hp, hph, hlocked⟩ := h.status_writer ht ha hchanged
      rw [Db.Locked, hp, hph, hlock] at hlocked
      cases hlocked
    | some r' =>
      -- only a burial takes the row away, and it knows that the package is stored
      have hdelete : ∃ l, o = .sql (.deleteLock l) := by
        by_contra hno
        rw [answer_lock ha fun l hl => hno ⟨l, hl⟩, hlock] at hfree
        cases hfree
      obtain ⟨l, rfl⟩ := hdelete
      rcases answer_sql ha with ⟨x, _, hx⟩ | ⟨_, _, _, _, rfl⟩
      swap
      · rw [hlock] at hfree
        cases hfree
      rw [exec_deleteLock hx] at hfree ⊢
      split at hfree
      swap
      · rw [hlock] at hfree
        cases hfree
      rename_i hlocked
      change put c.db.lock _ _ _ row.id .build = none at hfree
      rw [put_apply] at hfree
      split at hfree
      swap
      · rw [hlock] at hfree
        cases hfree
      rename_i hslot
      have hop := h.orderly.regular.conduct.op ht
      have hburial : ∃ code, k = .burial l code := by
        cases k with
        | worker l₁ => rcases hop with hop | ⟨_, hop⟩ <;> cases hop
        | burial l₁ code =>
          rcases hop with hop | ⟨_, hop⟩
          · cases hop
            exact ⟨code, rfl⟩
          · split at hop <;> cases hop
        | killer l₁ => exact absurd ht ((h.orderly.quiet trivial).killer _ _ _)
        | _ => cases hop
      obtain ⟨code, rfl⟩ := hburial
      have hcode : code ≠ 6 := by
        rintro rfl
        exact (h.unreset _ _ _ ht).2 l rfl hslot.2.symm
      have hclaim := (h.sound _ _ _ ht).needs rfl hcode hslot.2.symm hlocked
      obtain rfl : l.port = row := List.inj_on_of_nodup_map c.db.tree.ports_key
        ((h.rooted _ _ _ ht).1 l rfl) hrow hslot.1.symm
      rw [if_pos hlocked]
      exact hclaim
  | still => exact keep hfree hrow rfl
  | tick => exact keep hfree hrow rfl

theorem step (h : Published c) (hm : Move c e c') (hu : Undisturbed c e) : Published c' where
  orderly := h.orderly.step hm hu.tame
  unreset := h.unreset.step h.orderly.regular.links hm hu
  rooted := h.rooted.step h.orderly.regular.links hm
  sound := h.sound_step hm hu
  stored := h.stored_step hm

end Published
end Mports.MagusUploads
