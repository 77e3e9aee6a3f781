import Mports.ProgramRuns
import Mports.RunTables

set_option autoImplicit false

/-!
delete_run.pl: the tables are maintained by hand, in one transaction. Class::DBI deletes
object by object, after what the has_many relations of its class name.
-/
namespace Mports.RunDeletion
open StatementPrograms ProgramRuns RunTables

/-- The statements of the script; what it prints is one too. -/
inductive Op where
  | beginWork
  | commit
  | rollback
  | retrieve (run : ℕ)
  | ports (run : ℕ)
  | find (q : Find)
  | delete (x : Object)
  | deletePort (id : ℕ)
  | deleteRun (id : ℕ)
  | print (text : String)
  deriving DecidableEq

def Op.Res : Op → Type
  | .retrieve _ => Bool
  | .ports _ => List ℕ
  | .find _ => List Object
  | _ => Unit

def magus : Signature where
  Op := Op
  Res := Op.Res
  Exn := String
  Code := Empty

section Script

def beginWork : Prog magus Unit := Prog.issue (S := magus) .beginWork
def commit : Prog magus Unit := Prog.issue (S := magus) .commit
def rollback : Prog magus Unit := Prog.issue (S := magus) .rollback
def retrieve (run : ℕ) : Prog magus Bool := Prog.issue (S := magus) (.retrieve run)
def ports (run : ℕ) : Prog magus (List ℕ) := Prog.issue (S := magus) (.ports run)
def find (q : Find) : Prog magus (List Object) := Prog.issue (S := magus) (.find q)
def delete (x : Object) : Prog magus Unit := Prog.issue (S := magus) (.delete x)
def deletePort (id : ℕ) : Prog magus Unit := Prog.issue (S := magus) (.deletePort id)
def deleteRun (id : ℕ) : Prog magus Unit := Prog.issue (S := magus) (.deleteRun id)
def print (text : String) : Prog magus Unit := Prog.issue (S := magus) (.print text)

/-- `search(...)->delete_all`. -/
def deleteAll (q : Find) : Prog magus Unit := do
  let found ← find q
  Prog.forEach found delete

/-- `$port->events->delete_all if $port->events`. -/
def deleteAllIf (q : Find) : Prog magus Unit := do
  let found ← find q
  Prog.when (found ≠ []) (deleteAll q)

/-- The has_many relations of Magus::Port; that of `critical` is by the column pkgname. -/
def relations (port : ℕ) : List Find :=
  [.depender port, .rows .categories port, .rows .perms port, .rows .events port, .rows .phaseResults port,
    .rows .phaseLogs port, .rows .masterSites port, .rows .distfiles port, .rows .restrictedDistfiles port,
    .critical (toString port)]

def portDelete (port : ℕ) : Prog magus Unit := do
  Prog.forEach (relations port) deleteAll
  deletePort port

def runDelete (run : ℕ) : Prog magus Unit := do
  let objects ← ports run
  Prog.forEach objects portDelete
  deleteAll (.defaults run)
  deleteRun run

def portRound (port : ℕ) : Prog magus Unit := do
  deleteAllIf (.rows .events port)
  deleteAll (.rows .logs port)
  deleteAll (.rows .phaseLogs port)
  deleteAll (.rows .phaseResults port)
  deleteAll (.depender port)
  deleteAll (.dependency port)
  deleteAllIf (.rows .masterSites port)
  deleteAllIf (.rows .distfiles port)
  deleteAllIf (.rows .restrictedDistfiles port)
  deleteAll (.rows .perms port)
  portDelete port
  print ("Deleted port " ++ toString port ++ "\n")

def runRound (run : ℕ) : Prog magus Unit := do
  let found ← retrieve run
  if found then do
    let objects ← ports run
    Prog.forEach objects portRound
    runDelete run
    print ("Deleted run " ++ toString run ++ "\n")
  else print ("Couldn't find run with ID " ++ toString run ++ "\n")

/-- The `eval`. -/
def deleteRuns (runIds : List ℕ) : Prog magus Unit := do
  Prog.forEach runIds runRound
  commit

def failed (e : String) : Prog magus Unit := do
  rollback
  Prog.raise (S := magus) ("Error deleting runs: " ++ e ++ "\n")

def script (runIds : List ℕ) : Prog magus Unit :=
  if runIds = [] then print "No run IDs provided.\n"
  else do
    beginWork
    Prog.tryCatch (deleteRuns runIds) failed
    print "Finished deleting runs.\n"

end Script

/-- The database as others see it, the open transaction, and how many were committed. -/
structure Session where
  stable : Database
  working : Option Database
  commits : ℕ

namespace Session

def view (s : Session) : Database := s.working.getD s.stable

def restrict (k : Keep) (s : Session) : Session :=
  match s.working with
  | some d => { s with working := some (d.restrict k) }
  | none => { s with stable := s.stable.restrict k }

end Session

/-- The tables whose column `port` references ports. -/
def referring : List Table :=
  [.events, .logs, .phaseLogs, .phaseResults, .perms, .masterSites, .distfiles, .restrictedDistfiles, .locks]

def PortReferred (d : Database) (port : ℕ) : Prop :=
  (∃ t ∈ referring, ∃ r ∈ d.rows t, r.port = port) ∨ ∃ x ∈ d.depends, x.port = port ∨ x.dependency = port

instance (d : Database) (port : ℕ) : Decidable (PortReferred d port) := inferInstanceAs (Decidable (_ ∨ _))

def RunReferred (d : Database) (run : ℕ) : Prop :=
  (∃ p ∈ d.ports, p.run = run) ∨ ∃ m ∈ d.moved, m.run = run

instance (d : Database) (run : ℕ) : Decidable (RunReferred d run) := inferInstanceAs (Decidable (_ ∨ _))

def violation (table : String) : String :=
  "update or delete on table \"" ++ table ++ "\" violates foreign key constraint"

def lessPort (id : ℕ) : Keep := { port := fun p => p.id ≠ id }
def lessRun (id : ℕ) : Keep := { run := fun r => r.id ≠ id, default := fun v => v.run ≠ id }

def answer (s : Session) : (o : magus.Op) → Except magus.Exn (magus.Res o) × Session
  | .beginWork => (.ok (), { s with working := some s.stable })
  | .commit => (.ok (), ⟨s.view, none, s.commits + 1⟩)
  | .rollback => (.ok (), { s with working := none })
  | .retrieve run => (.ok (s.view.runs.any (·.id = run)), s)
  | .ports run => (.ok ((s.view.ports.filter (·.run = run)).map (·.id)), s)
  | .find q => (.ok (search s.view q), s)
  | .delete x => (.ok (), s.restrict x.others)
  | .deletePort id =>
    if PortReferred s.view id then (.error (violation "ports"), s) else (.ok (), s.restrict (lessPort id))
  | .deleteRun id =>
    if RunReferred s.view id then (.error (violation "runs"), s) else (.ok (), s.restrict (lessRun id))
  | .print _ => (.ok (), s)

def Answers (s : Session) (o : magus.Op) (r : Except magus.Exn (magus.Res o)) (t : Session) : Prop :=
  (r, t) = answer s o ∨ ∃ e, r = .error e ∧ (t = s ∨ t = { s with working := none })

namespace Session

variable {s : Session} {k k' : Keep}

@[simp] theorem view_restrict : (s.restrict k).view = s.view.restrict k := by
  cases h : s.working <;> simp [restrict, view, h]

theorem restrict_restrict : (s.restrict k).restrict k' = s.restrict (k.and k') := by
  cases h : s.working <;> simp [restrict, h, Database.restrict_restrict]

theorem restrict_of_view (h : s.view.restrict k = s.view.restrict k') : s.restrict k = s.restrict k' := by
  cases hw : s.working <;> simp_all [restrict, view]

theorem restrict_of_view_eq (h : s.view.restrict k = s.view) : s.restrict k = s := by
  obtain ⟨stable, working, commits⟩ := s
  cases working <;> simp_all [restrict, view]

theorem foldl_restrict {α : Type} (each : α → Keep) (xs : List α) (s : Session) :
    xs.foldl (fun s x => s.restrict (each x)) s = s.restrict (.all xs each) := by
  induction xs generalizing s with
  | nil => exact (restrict_of_view_eq (Database.foldl_restrict each [] s.view).symm).symm
  | cons x xs ih =>
    rw [List.foldl_cons, ih, restrict_restrict]
    rfl

end Session

section Results

variable {Q : Unit → Session → Prop} {s : Session}

theorem attains_delete {x : Object} : Attains answer Q (delete x) s ↔ Q () (s.restrict x.others) :=
  attains_issue (S := magus) (f := answer) (o := .delete x) (r := ()) rfl

theorem attains_print {text : String} : Attains answer Q (print text) s ↔ Q () s :=
  attains_issue (S := magus) (f := answer) (o := .print text) (r := ()) rfl

theorem attains_find {q : Find} {Q : List Object → Session → Prop} :
    Attains answer Q (find q) s ↔ Q (search s.view q) s :=
  attains_issue (S := magus) (f := answer) (o := .find q) (r := search s.view q) rfl

theorem attains_ports {run : ℕ} {Q : List ℕ → Session → Prop} :
    Attains answer Q (ports run) s ↔ Q ((s.view.ports.filter (·.run = run)).map (·.id)) s :=
  attains_issue (S := magus) (f := answer) (o := .ports run)
    (r := (s.view.ports.filter (·.run = run)).map (·.id)) rfl

theorem attains_deletePort {id : ℕ} :
    Attains answer Q (deletePort id) s ↔ ¬ PortReferred s.view id ∧ Q () (s.restrict (lessPort id)) := by
  by_cases h : PortReferred s.view id
  · simp [deletePort, Prog.issue, Attains, answer, h]
  · simp [deletePort, Prog.issue, Attains, answer, h]

theorem attains_deleteRun {id : ℕ} :
    Attains answer Q (deleteRun id) s ↔ ¬ RunReferred s.view id ∧ Q () (s.restrict (lessRun id)) := by
  by_cases h : RunReferred s.view id
  · simp [deleteRun, Prog.issue, Attains, answer, h]
  · simp [deleteRun, Prog.issue, Attains, answer, h]

theorem attains_deleteAll {q : Find} : Attains answer Q (deleteAll q) s ↔ Q () (s.restrict q.others) := by
  refine attains_bind.trans (attains_find.trans ((attains_forEach fun _ _ _ => attains_delete).trans ?_))
  rw [Session.foldl_restrict, Session.restrict_of_view ((Database.foldl_restrict _ _ _).symm.trans (foldl_search _ q))]

theorem attains_deleteAllIf {q : Find} : Attains answer Q (deleteAllIf q) s ↔ Q () (s.restrict q.others) := by
  refine attains_bind.trans (attains_find.trans (attains_when.trans ?_))
  by_cases hfound : search s.view q = []
  · have hkeep : s.view.restrict q.others = s.view := by
      rw [← foldl_search, hfound, List.foldl_nil]
    simp [hfound, Session.restrict_of_view_eq hkeep]
  · simp only [ne_eq, hfound, not_false_eq_true, if_true]
    exact attains_deleteAll

/-- What is left when a port is deleted: the locks, and what has to do with other ports. -/
def gone (port : ℕ) : Keep where
  port p := p.id ≠ port
  row t r := t = .locks || r.port ≠ port
  depend x := x.port ≠ port && x.dependency ≠ port
  critical c := c.pkgname ≠ toString port

theorem attains_cascade {port : ℕ} :
    Attains answer Q (Prog.forEach (relations port) deleteAll) s ↔
      Q () (s.restrict (.all (relations port) Find.others)) := by
  refine (attains_forEach fun _ _ _ => attains_deleteAll).trans ?_
  rw [Session.foldl_restrict]

/-- What is left when all searches of the loop are done, the port itself still there. -/
def cleared (port : ℕ) : Keep := { gone port with port := fun _ => true }

theorem cleared_lessPort (port : ℕ) : (cleared port).and (lessPort port) = gone port := by
  ext <;> simp [cleared, lessPort, gone, Keep.and]

theorem not_referred {d : Database} {port : ℕ} (hlock : ∀ l ∈ d.rows .locks, l.port ≠ port) :
    ¬ PortReferred (d.restrict (cleared port)) port := by
  rintro (⟨t, ht, r, hr, rfl⟩ | ⟨x, hx, hport⟩)
  · rw [Database.mem_rows] at hr
    by_cases hlocks : t = .locks
    · exact hlock r (hlocks ▸ hr.1) rfl
    · simp [cleared, gone, hlocks] at hr
  · rw [Database.mem_depends] at hx
    simp only [cleared, gone, Bool.and_eq_true, decide_eq_true_eq] at hx
    exact hport.elim hx.2.1 hx.2.2

theorem attains_portRound {port : ℕ} (hlock : ∀ l ∈ s.view.rows .locks, l.port ≠ port) :
    Attains answer Q (portRound port) s ↔ Q () (s.restrict (gone port)) := by
  simp only [portRound, portDelete, attains_bind, attains_deleteAllIf, attains_deleteAll, attains_cascade,
    attains_deletePort, attains_print, Session.restrict_restrict, Session.view_restrict]
  have hcleared : (((((((((((Find.rows .events port).others.and (Find.rows .logs port).others).and
      (Find.rows .phaseLogs port).others).and (Find.rows .phaseResults port).others).and
      (Find.depender port).others).and (Find.dependency port).others).and
      (Find.rows .masterSites port).others).and (Find.rows .distfiles port).others).and
      (Find.rows .restrictedDistfiles port).others).and (Find.rows .perms port).others).and
      (Keep.all (relations port) Find.others)) = cleared port := by
    ext
    case row t r =>
      simp only [cleared, gone, Keep.and, Keep.all, relations, Find.others, List.all_cons, List.all_nil, ne_eq,
        decide_not]
      generalize decide (r.port = port) = here
      cases here <;> cases t <;> rfl
    case depend x =>
      simp only [cleared, gone, Keep.and, Keep.all, relations, Find.others, List.all_cons, List.all_nil, ne_eq,
        decide_not]
      generalize decide (x.port = port) = here
      cases here <;> simp
    case critical c => simp [cleared, gone, Keep.and, Keep.all, relations, Find.others]
    all_goals rfl
  rw [hcleared, cleared_lessPort]
  exact and_iff_right (not_referred hlock)

theorem attains_portRounds {ids : List ℕ} (hlock : ∀ l ∈ s.view.rows .locks, l.port ∉ ids) :
    Attains answer Q (Prog.forEach ids portRound) s ↔ Q () (s.restrict (.all ids gone)) := by
  induction ids generalizing s with
  | nil =>
    rw [← Session.foldl_restrict]
    rfl
  | cons id ids ih =>
    have hfirst : ∀ l ∈ s.view.rows .locks, l.port ≠ id := fun l hl h => hlock l hl (h ▸ List.mem_cons_self)
    have hlater : ∀ l ∈ (s.restrict (gone id)).view.rows .locks, l.port ∉ ids := by
      intro l hl h
      rw [Session.view_restrict, Database.mem_rows] at hl
      exact hlock l hl.1 (List.mem_cons_of_mem _ h)
    refine attains_bind.trans ((attains_portRound hfirst).trans ((ih hlater).trans ?_))
    rw [Session.restrict_restrict]
    rfl

end Results

def portIds (d : Database) (runs : List ℕ) : List ℕ := (d.ports.filter (·.run ∈ runs)).map (·.id)

structure RunKeys (d : Database) : Prop where
  ports_run : ∀ p ∈ d.ports, ∃ r ∈ d.runs, r.id = p.run
  moved_run : ∀ m ∈ d.moved, ∃ r ∈ d.runs, r.id = m.run
  defaults_run : ∀ v ∈ d.defaults, ∃ r ∈ d.runs, r.id = v.run

structure Schema (d : Database) : Prop extends RunKeys d where
  rows_port : ∀ t ∈ referring, ∀ r ∈ d.rows t, ∃ p ∈ d.ports, p.id = r.port
  depends_port : ∀ x ∈ d.depends, (∃ p ∈ d.ports, p.id = x.port) ∧ ∃ p ∈ d.ports, p.id = x.dependency

def wiped (d : Database) (runs : List ℕ) : Keep where
  run r := r.id ∉ runs
  port p := p.run ∉ runs
  row t r := t = .locks || r.port ∉ portIds d runs
  depend x := x.port ∉ portIds d runs && x.dependency ∉ portIds d runs
  default v := v.run ∉ runs
  critical c := c.pkgname ∉ (portIds d runs).map toString

section Wiped

variable {d : Database} {runs : List ℕ}

@[simp] theorem wiped_run {r : RunRow} : (wiped d runs).run r ↔ r.id ∉ runs := decide_eq_true_iff
@[simp] theorem wiped_port {p : PortRow} : (wiped d runs).port p ↔ p.run ∉ runs := decide_eq_true_iff
@[simp] theorem wiped_row {t : Table} {r : Row} :
    (wiped d runs).row t r ↔ t = .locks ∨ r.port ∉ portIds d runs := by
  simp [wiped]
@[simp] theorem wiped_depend {x : Depend} :
    (wiped d runs).depend x ↔ x.port ∉ portIds d runs ∧ x.dependency ∉ portIds d runs := by
  simp [wiped]
@[simp] theorem wiped_default {v : RunPart} : (wiped d runs).default v ↔ v.run ∉ runs := decide_eq_true_iff
@[simp] theorem wiped_critical {c : Critical} :
    (wiped d runs).critical c ↔ c.pkgname ∉ (portIds d runs).map toString := decide_eq_true_iff

end Wiped

section Runs

variable {Q : Unit → Session → Prop} {s : Session} {d : Database}

theorem mem_portIds (runs : List ℕ) {p : PortRow} (hp : p ∈ d.ports) : p.id ∈ portIds d runs ↔ p.run ∈ runs := by
  simp only [portIds, List.mem_map, List.mem_filter, decide_eq_true_eq]
  constructor
  · rintro ⟨q, ⟨hq, hrun⟩, hid⟩
    rwa [← d.ports_key q hq p hp hid]
  · exact fun h => ⟨p, ⟨hp, h⟩, rfl⟩

theorem gone_ports (run : ℕ) : ∀ p ∈ (d.restrict (.all (portIds d [run]) gone)).ports, p.run ≠ run := by
  rintro p hp rfl
  rw [Database.mem_ports] at hp
  simp only [Keep.all, gone, List.all_eq_true, decide_eq_true_eq] at hp
  exact hp.2 p.id ((mem_portIds [p.run] hp.1).2 (by simp)) rfl

theorem restrict_run (run : ℕ) :
    d.restrict ((Keep.all (portIds d [run]) gone).and ((Find.defaults run).others.and (lessRun run))) =
      d.restrict (wiped d [run]) := by
  refine Database.restrict_congr ?_ (fun p hp => ?hport) (fun t r _ => ?hrow) (fun x _ => ?hdepend) ?_ ?_
    fun c _ => ?hcritical
  case hport =>
    have hmem := mem_portIds [run] hp
    rw [Bool.eq_iff_iff]
    simp only [Keep.and, Keep.all, gone, Find.others, lessRun, wiped, Bool.and_true, List.all_eq_true, decide_eq_true_eq]
    exact ⟨fun h hrun => h _ (hmem.2 hrun) rfl, fun h i hi hid => h (hmem.1 (hid ▸ hi))⟩
  case hrow =>
    rw [Bool.eq_iff_iff]
    simp only [Keep.and, Keep.all, gone, Find.others, lessRun, wiped, Bool.and_true, List.all_eq_true, Bool.or_eq_true,
      decide_eq_true_eq]
    grind
  case hdepend =>
    rw [Bool.eq_iff_iff]
    simp only [Keep.and, Keep.all, gone, Find.others, lessRun, wiped, Bool.and_true, List.all_eq_true,
      Bool.and_eq_true, decide_eq_true_eq]
    grind
  case hcritical =>
    rw [Bool.eq_iff_iff]
    simp only [Keep.and, Keep.all, gone, Find.others, lessRun, wiped, Bool.and_true, List.all_eq_true, List.mem_map,
      decide_eq_true_eq]
    grind
  all_goals simp [Keep.and, Keep.all, gone, Find.others, lessRun, wiped]

theorem restrict_unknown (hd : RunKeys d) {run : ℕ} (hrun : ¬ ∃ r ∈ d.runs, r.id = run) :
    d.restrict (wiped d [run]) = d := by
  have hports : ∀ p ∈ d.ports, p.run ≠ run := by
    rintro p hp rfl
    exact hrun (hd.ports_run p hp)
  have hids : portIds d [run] = [] := by
    simpa [portIds] using hports
  have hkeep : d.restrict (wiped d [run]) = d.restrict {} := by
    refine Database.restrict_congr (fun r hr => ?_) (fun p hp => ?_) ?_ ?_ ?_ (fun v hv => ?_) ?_
    · simpa [wiped] using fun h => hrun ⟨r, hr, h⟩
    · simpa [wiped] using hports p hp
    · simp [wiped, hids]
    · simp [wiped, hids]
    · simp [wiped]
    · have hother : v.run ≠ run := by
        rintro rfl
        exact hrun (hd.defaults_run v hv)
      simpa [wiped] using hother
    · simp [wiped, hids]
  rw [hkeep, Database.restrict_all]

theorem attains_runDelete {run : ℕ} (hports : ∀ p ∈ s.view.ports, p.run ≠ run) :
    Attains answer Q (runDelete run) s ↔
      (∀ m ∈ s.view.moved, m.run ≠ run) ∧ Q () (s.restrict ((Find.defaults run).others.and (lessRun run))) := by
  have hnone : (s.view.ports.filter (·.run = run)).map (·.id) = [] := by
    simpa using hports
  refine attains_bind.trans (attains_ports.trans ?_)
  rw [hnone]
  refine attains_bind.trans (attains_bind.trans (attains_deleteAll.trans (attains_deleteRun.trans ?_)))
  rw [Session.restrict_restrict, Session.view_restrict]
  refine and_congr_left fun _ => ?_
  simp only [RunReferred, Database.mem_ports, Database.mem_moved, not_or, not_exists, not_and, Find.others]
  constructor
  · exact fun h m hm => h.2 m ⟨hm, trivial⟩
  · exact fun h => ⟨fun p hp => hports p hp.1, fun m hm => h m hm.1⟩

theorem attains_runRound {run : ℕ} (hs : RunKeys s.view) (hlock : ∀ l ∈ s.view.rows .locks, l.port ∉ portIds s.view [run]) :
    Attains answer Q (runRound run) s ↔
      (∀ m ∈ s.view.moved, m.run ≠ run) ∧ Q () (s.restrict (wiped s.view [run])) := by
  have hretrieve : ∀ {Q : Bool → Session → Prop},
      Attains answer Q (retrieve run) s ↔ Q (s.view.runs.any (·.id = run)) s :=
    attains_issue (S := magus) (f := answer) (o := .retrieve run) (r := s.view.runs.any (·.id = run)) rfl
  refine attains_bind.trans (hretrieve.trans ?_)
  by_cases hfound : s.view.runs.any (·.id = run)
  · rw [if_pos hfound]
    have hids : (s.view.ports.filter (·.run = run)).map (·.id) = portIds s.view [run] := by
      simp [portIds]
    refine attains_bind.trans (attains_ports.trans ?_)
    rw [hids]
    refine attains_bind.trans ((attains_portRounds hlock).trans ?_)
    have hnone : ∀ p ∈ (s.restrict (.all (portIds s.view [run]) gone)).view.ports, p.run ≠ run := by
      rw [Session.view_restrict]
      exact gone_ports run
    refine attains_bind.trans ((attains_runDelete hnone).trans ?_)
    rw [Session.view_restrict, attains_print, Session.restrict_restrict, Session.restrict_of_view (restrict_run run)]
    refine and_congr_left fun _ => forall_congr' fun m => ?_
    simp [Keep.all, gone]
  · rw [if_neg hfound, attains_print]
    simp only [List.any_eq_true, decide_eq_true_eq] at hfound
    rw [Session.restrict_of_view_eq (restrict_unknown hs hfound)]
    refine (and_iff_right fun m hm hrun => hfound ?_).symm
    rw [← hrun]
    exact hs.moved_run m hm

theorem RunKeys.wiped (hd : RunKeys d) {runs : List ℕ} (hmoved : ∀ m ∈ d.moved, m.run ∉ runs) :
    RunKeys (d.restrict (wiped d runs)) where
  ports_run p hp := by
    rw [Database.mem_ports] at hp
    obtain ⟨r, hr, hrun⟩ := hd.ports_run p hp.1
    exact ⟨r, Database.mem_runs.2 ⟨hr, by simpa [RunDeletion.wiped, hrun] using hp.2⟩, hrun⟩
  moved_run m hm := by
    rw [Database.mem_moved] at hm
    obtain ⟨r, hr, hrun⟩ := hd.moved_run m hm.1
    exact ⟨r, Database.mem_runs.2 ⟨hr, by simpa [RunDeletion.wiped, hrun] using hmoved m hm.1⟩, hrun⟩
  defaults_run v hv := by
    rw [Database.mem_defaults] at hv
    obtain ⟨r, hr, hrun⟩ := hd.defaults_run v hv.1
    exact ⟨r, Database.mem_runs.2 ⟨hr, by simpa [RunDeletion.wiped, hrun] using hv.2⟩, hrun⟩

theorem mem_portIds_wiped (d : Database) (run : ℕ) (runs : List ℕ) (id : ℕ) :
    id ∈ portIds d [run] ∨ id ∈ portIds (d.restrict (wiped d [run])) runs ↔ id ∈ portIds d (run :: runs) := by
  simp only [portIds, List.mem_map, List.mem_filter, Database.mem_ports, wiped, List.mem_cons, List.not_mem_nil,
    or_false, decide_eq_true_eq]
  grind

theorem restrict_runs (run : ℕ) (runs : List ℕ) :
    d.restrict ((wiped d [run]).and (wiped (d.restrict (wiped d [run])) runs)) = d.restrict (wiped d (run :: runs)) := by
  have hids := mem_portIds_wiped d run runs
  refine Database.restrict_congr (fun r _ => ?_) (fun p _ => ?_) (fun t r _ => ?_) (fun x _ => ?_) (fun _ _ => rfl)
    (fun v _ => ?_) fun c _ => ?_
  all_goals
    rw [Bool.eq_iff_iff]
    simp only [Keep.and, Bool.and_eq_true, wiped_run, wiped_port, wiped_row, wiped_depend, wiped_default,
      wiped_critical, ← hids, List.mem_cons, List.mem_map, List.not_mem_nil, or_false]
    generalize portIds (d.restrict (wiped d [run])) runs = later
    grind

theorem attains_runRounds {runs : List ℕ} (hs : RunKeys s.view)
    (hlock : ∀ l ∈ s.view.rows .locks, l.port ∉ portIds s.view runs) :
    Attains answer Q (Prog.forEach runs runRound) s ↔
      (∀ m ∈ s.view.moved, m.run ∉ runs) ∧ Q () (s.restrict (wiped s.view runs)) := by
  induction runs generalizing s with
  | nil =>
    have hkeep : s.view.restrict (wiped s.view []) = s.view := by
      have hall : wiped s.view [] = {} := by
        ext <;> simp [wiped, portIds]
      rw [hall, Database.restrict_all]
    rw [Session.restrict_of_view_eq hkeep]
    simp [Prog.forEach]
  | cons run runs ih =>
    have hids := mem_portIds_wiped s.view run runs
    have hfirst : ∀ l ∈ s.view.rows .locks, l.port ∉ portIds s.view [run] :=
      fun l hl h => hlock l hl ((hids l.port).1 (.inl h))
    refine attains_bind.trans ((attains_runRound hs hfirst).trans ?_)
    by_cases hmoved : ∀ m ∈ s.view.moved, m.run ≠ run
    · have hnext : RunKeys (s.restrict (wiped s.view [run])).view := by
        rw [Session.view_restrict]
        exact hs.wiped fun m hm => by simpa using hmoved m hm
      have hlater : ∀ l ∈ (s.restrict (wiped s.view [run])).view.rows .locks,
          l.port ∉ portIds (s.restrict (wiped s.view [run])).view runs := by
        rw [Session.view_restrict]
        intro l hl h
        rw [Database.mem_rows] at hl
        exact hlock l hl.1 ((hids l.port).1 (.inr h))
      rw [and_iff_right hmoved, ih hnext hlater, Session.view_restrict, Session.restrict_restrict,
        Session.restrict_of_view (restrict_runs run runs)]
      refine and_congr_left fun _ => forall_congr' fun m => ?_
      rw [Database.mem_moved]
      constructor
      · exact fun h hm => List.not_mem_cons_of_ne_of_not_mem (hmoved m hm) (h ⟨hm, rfl⟩)
      · exact fun h hm hrun => h hm.1 (List.mem_cons_of_mem _ hrun)
    · refine iff_of_false (fun h => hmoved h.1) fun h => hmoved fun m hm hrun => h.1 m hm ?_
      rw [hrun]
      exact List.mem_cons_self

end Runs

section Transaction

/-- What becomes of the database when the runs are deleted with all that belongs to them. -/
def belonging (d : Database) (runs : List ℕ) : Keep where
  run r := r.id ∉ runs
  port p := p.run ∉ runs
  row _ r := r.port ∉ portIds d runs
  depend x := x.port ∉ portIds d runs && x.dependency ∉ portIds d runs
  moved m := m.run ∉ runs
  default v := v.run ∉ runs

def Locked (d : Database) (runs : List ℕ) : Prop := ∃ l ∈ d.rows .locks, l.port ∈ portIds d runs

/-- Nothing but a key standing against it, the script returns, and others see the database
without the runs. -/
def Deletes (d : Database) (runs : List ℕ) : Prop :=
  Attains answer (fun _ t => t.working = none ∧ t.stable = d.restrict (belonging d runs)) (script runs) ⟨d, none, 0⟩

/-- Whatever fails and wherever the script is killed, others see the database as it was
unless a transaction was committed. -/
def Atomic (d : Database) (runs : List ℕ) : Prop :=
  ∀ q t, Runs Answers (script runs) ⟨d, none, 0⟩ q t → t.commits = 0 → t.stable = d

variable {d : Database} {runs : List ℕ}

theorem Schema.belonging (hd : Schema d) (runs : List ℕ) : Schema (d.restrict (belonging d runs)) := by
  have hrun : ∀ r ∈ d.runs, r.id ∉ runs → r ∈ (d.restrict (RunDeletion.belonging d runs)).runs :=
    fun r hr h => Database.mem_runs.2 ⟨hr, decide_eq_true h⟩
  have hport : ∀ p ∈ d.ports, p.id ∉ portIds d runs → p ∈ (d.restrict (RunDeletion.belonging d runs)).ports :=
    fun p hp h => Database.mem_ports.2 ⟨hp, decide_eq_true fun hr => h ((mem_portIds runs hp).2 hr)⟩
  refine ⟨⟨fun p hp => ?_, fun m hm => ?_, fun v hv => ?_⟩, fun t ht r hr => ?_, fun x hx => ?_⟩
  · obtain ⟨hp, hkept⟩ := Database.mem_ports.1 hp
    obtain ⟨r, hr, hid⟩ := hd.ports_run p hp
    exact ⟨r, hrun r hr (by simpa [RunDeletion.belonging, hid] using hkept), hid⟩
  · obtain ⟨hm, hkept⟩ := Database.mem_moved.1 hm
    obtain ⟨r, hr, hid⟩ := hd.moved_run m hm
    exact ⟨r, hrun r hr (by simpa [RunDeletion.belonging, hid] using hkept), hid⟩
  · obtain ⟨hv, hkept⟩ := Database.mem_defaults.1 hv
    obtain ⟨r, hr, hid⟩ := hd.defaults_run v hv
    exact ⟨r, hrun r hr (by simpa [RunDeletion.belonging, hid] using hkept), hid⟩
  · obtain ⟨hr, hkept⟩ := Database.mem_rows.1 hr
    obtain ⟨p, hp, hid⟩ := hd.rows_port t ht r hr
    exact ⟨p, hport p hp (by simpa [RunDeletion.belonging, hid] using hkept), hid⟩
  · obtain ⟨hx, hkept⟩ := Database.mem_depends.1 hx
    obtain ⟨⟨p, hp, hpid⟩, q, hq, hqid⟩ := hd.depends_port x hx
    simp only [RunDeletion.belonging, Bool.and_eq_true, decide_eq_true_eq] at hkept
    exact ⟨⟨p, hport p hp (hpid ▸ hkept.1), hpid⟩, q, hport q hq (hqid ▸ hkept.2), hqid⟩

theorem wiped_eq_belonging (hlock : ¬ Locked d runs) (hmoved : ∀ m ∈ d.moved, m.run ∉ runs) :
    d.restrict (wiped d runs) = d.restrict (belonging d runs) ↔
      ∀ c ∈ d.critical, c.pkgname ∉ (portIds d runs).map toString := by
  constructor
  · intro h c hc
    have hkept : c ∈ (d.restrict (wiped d runs)).critical := by
      rw [h, Database.mem_critical]
      exact ⟨hc, rfl⟩
    exact wiped_critical.1 (Database.mem_critical.1 hkept).2
  · intro h
    refine Database.restrict_congr (fun _ _ => rfl) (fun _ _ => rfl) (fun t r hr => ?_) (fun _ _ => rfl)
      (fun m hm => ?_) (fun _ _ => rfl) fun c hc => ?_
    · rw [Bool.eq_iff_iff, wiped_row]
      simp only [belonging, decide_eq_true_eq, or_iff_right_iff_imp]
      rintro rfl hport
      exact hlock ⟨r, hr, hport⟩
    · exact (decide_eq_true (hmoved m hm)).symm
    · exact wiped_critical.2 (h c hc)

theorem failed_raises {Q : Unit → Session → Prop} (e : String) (s : Session) : ¬ Attains answer Q (failed e) s := by
  intro h
  exact (attains_issue (S := magus) (f := answer) (o := .rollback) (r := ()) rfl).1 (attains_bind.1 h)

theorem deletes_iff (hd : RunKeys d) (hlock : ¬ Locked d runs) :
    Deletes d runs ↔ (∀ m ∈ d.moved, m.run ∉ runs) ∧ ∀ c ∈ d.critical, c.pkgname ∉ (portIds d runs).map toString := by
  by_cases hruns : runs = []
  · subst hruns
    have hkeep : d.restrict (belonging d []) = d := by
      have hall : belonging d [] = {} := by
        ext <;> simp [belonging, portIds]
      rw [hall, Database.restrict_all]
    rw [Deletes, script, if_pos rfl, attains_print, hkeep]
    simp [portIds]
  · have hbegin : ∀ {Q : Unit → Session → Prop}, Attains answer Q beginWork ⟨d, none, 0⟩ ↔ Q () ⟨d, some d, 0⟩ :=
      attains_issue (S := magus) (f := answer) (o := .beginWork) (r := ()) rfl
    have hcommit : ∀ {Q : Unit → Session → Prop} {s : Session},
        Attains answer Q commit s ↔ Q () ⟨s.view, none, s.commits + 1⟩ :=
      attains_issue (S := magus) (f := answer) (o := .commit) (r := ()) rfl
    have hunlocked : ∀ l ∈ d.rows .locks, l.port ∉ portIds d runs := fun l hl h => hlock ⟨l, hl, h⟩
    rw [Deletes, script, if_neg hruns]
    refine attains_bind.trans (hbegin.trans (attains_bind.trans ((attains_tryCatch failed_raises).trans ?_)))
    refine attains_bind.trans ((attains_runRounds (s := ⟨d, some d, 0⟩) hd hunlocked).trans ?_)
    refine and_congr_right fun hmoved => ?_
    rw [hcommit, attains_print, ← wiped_eq_belonging hlock hmoved]
    exact and_iff_right rfl

def Unseen (d : Database) (s : Session) : Prop := s.stable = d ∧ s.commits = 0

def Open (d : Database) (s : Session) : Prop := Unseen d s ∧ s.working.isSome

abbrev shown (d : Database) : Setting magus Session := alone Answers fun t _ => t.commits = 0 → t.stable = d

def Inside {α : Type} (d : Database) (p : Prog magus α) : Prop :=
  ∀ s, Open d s → Outline (shown d) (Ends (fun _ => Open d) (fun _ => Unseen d) fun _ _ => False) p s

theorem Open.restrict {s : Session} (h : Open d s) (k : Keep) : Open d (s.restrict k) := by
  obtain ⟨w, hw⟩ := Option.isSome_iff_exists.1 h.2
  have hrestrict : s.restrict k = { s with working := some (w.restrict k) } := by
    simp [Session.restrict, hw]
  rw [hrestrict]
  exact ⟨h.1, rfl⟩

def Op.inside : Op → Bool
  | .beginWork | .commit | .rollback => false
  | _ => true

theorem Open.answer {s : Session} (h : Open d s) {o : Op} (ho : o.inside) : Open d (answer s o).2 := by
  cases o with
  | beginWork | commit | rollback => cases ho
  | retrieve | ports | find | print => exact h
  | delete x => exact h.restrict _
  | deletePort id =>
    by_cases href : PortReferred s.view id
    · simpa [RunDeletion.answer, href] using h
    · simpa [RunDeletion.answer, href] using h.restrict _
  | deleteRun id =>
    by_cases href : RunReferred s.view id
    · simpa [RunDeletion.answer, href] using h
    · simpa [RunDeletion.answer, href] using h.restrict _

theorem Unseen.error {s t : Session} (h : Unseen d s) (ht : t = s ∨ t = { s with working := none }) : Unseen d t := by
  rcases ht with rfl | rfl
  · exact h
  · exact h

namespace Inside

theorem issue {o : Op} (ho : o.inside) : Inside d (Prog.issue (S := magus) o) := by
  intro s hs
  refine outline_issue (fun _ => hs.1.1) (fun r u hu => ?_) fun e u hu => ?_
  · rcases hu with hu | ⟨_, h, _⟩
    · have := hs.answer ho
      rwa [← hu] at this
    · cases h
  · rcases hu with hu | ⟨_, _, hu⟩
    · have := hs.answer ho
      rw [← hu] at this
      exact this.1
    · exact hs.1.error hu

theorem bind {α β : Type} {p : Prog magus α} {f : α → Prog magus β} (hp : Inside d p) (hf : ∀ a, Inside d (f a)) :
    Inside d (p >>= f) :=
  fun s hs => (hp s hs).seq fun a t ht => hf a t ht

theorem forEach {α : Type} {xs : List α} {f : α → Prog magus Unit} (hf : ∀ x, Inside d (f x)) :
    Inside d (Prog.forEach xs f) :=
  fun _ hs => Outline.forEach (I := fun _ => Open d) (fun x _ t ht => hf x t ht)
    (fun s t hs ht => by cases ht; exact hs) hs

theorem ret {α : Type} (a : α) : Inside d (.ret a) := fun _ hs => outline_ret hs

theorem deleteAll (q : Find) : Inside d (deleteAll q) :=
  bind (issue rfl) fun _ => forEach fun _ => issue rfl

theorem deleteAllIf (q : Find) : Inside d (deleteAllIf q) :=
  bind (issue rfl) fun _ s hs => .when (fun _ => deleteAll q s hs) fun _ => ret () s hs

theorem portDelete (port : ℕ) : Inside d (portDelete port) :=
  bind (forEach deleteAll) fun _ => issue rfl

theorem portRound (port : ℕ) : Inside d (portRound port) :=
  bind (deleteAllIf _) fun _ => bind (deleteAll _) fun _ => bind (deleteAll _) fun _ => bind (deleteAll _) fun _ =>
    bind (deleteAll _) fun _ => bind (deleteAll _) fun _ => bind (deleteAllIf _) fun _ => bind (deleteAllIf _) fun _ =>
    bind (deleteAllIf _) fun _ => bind (deleteAll _) fun _ => bind (portDelete port) fun _ => issue rfl

theorem runDelete (run : ℕ) : Inside d (runDelete run) :=
  bind (issue rfl) fun _ => bind (forEach portDelete) fun _ => bind (deleteAll _) fun _ => issue rfl

theorem runRound (run : ℕ) : Inside d (runRound run) := by
  refine bind (issue rfl) fun found => ?_
  cases found with
  | true => exact bind (issue rfl) fun _ => bind (forEach portRound) fun _ => bind (runDelete run) fun _ => issue rfl
  | false => exact issue rfl

end Inside

theorem deleteRuns_outline {s : Session} (hs : Open d s) :
    Outline (shown d) (Ends (fun _ t => t.commits = 0 → t.stable = d) (fun _ => Unseen d) fun _ _ => False)
      (deleteRuns runs) s := by
  refine (Inside.forEach Inside.runRound s hs).seq fun _ t ht => ?_
  refine outline_issue (fun _ => ht.1.1) (fun r u hu => ?_) fun e u hu => ?_
  · rcases hu with hu | ⟨_, h, _⟩
    · obtain ⟨-, rfl⟩ := Prod.mk.inj hu
      exact fun h => absurd h (Nat.succ_ne_zero _)
    · cases h
  · rcases hu with hu | ⟨_, _, hu⟩
    · cases (Prod.mk.inj hu).1
    · exact ht.1.error hu

theorem failed_outline {s : Session} (e : String) (hs : Unseen d s) :
    Outline (shown d) (fun _ t => t.commits = 0 → t.stable = d) (failed e) s := by
  have hrollback : Outline (shown d) (fun _ t => Unseen d t) rollback s := by
    refine outline_issue (fun _ => hs.1) (fun r u hu => ?_) fun e u hu => ?_
    · rcases hu with hu | ⟨_, h, _⟩
      · obtain ⟨-, rfl⟩ := Prod.mk.inj hu
        exact hs
      · cases h
    · rcases hu with hu | ⟨_, _, hu⟩
      · cases (Prod.mk.inj hu).1
      · exact hs.error hu
  exact hrollback.bind (fun _ t ht => outline_raise fun _ => ht.1) (fun _ t ht _ => ht.1) fun _ t ht _ => ht.1

theorem print_outline {s : Session} {text : String} (hs : s.commits = 0 → s.stable = d) :
    Outline (shown d) (fun _ t => t.commits = 0 → t.stable = d) (print text) s := by
  have hlost : ∀ u, u = s ∨ u = { s with working := none } → u.commits = 0 → u.stable = d := by
    rintro u (rfl | rfl)
    · exact hs
    · exact hs
  refine outline_issue hs (fun r u hu => ?_) fun e u hu => ?_
  · rcases hu with hu | ⟨_, h, _⟩
    · exact hlost u (.inl (Prod.mk.inj hu).2)
    · cases h
  · rcases hu with hu | ⟨_, _, hu⟩
    · exact hlost u (.inl (Prod.mk.inj hu).2)
    · exact hlost u hu

theorem atomic (d : Database) (runs : List ℕ) : Atomic d runs := by
  have hscript : Outline (shown d) (fun _ t => t.commits = 0 → t.stable = d) (script runs) ⟨d, none, 0⟩ := by
    unfold script
    split
    · exact print_outline fun _ => rfl
    · have hbegin : Outline (shown d) (Ends (fun _ => Open d) (fun _ => Unseen d) fun _ _ => False) beginWork
          ⟨d, none, 0⟩ := by
        have hs : Unseen d ⟨d, none, 0⟩ := ⟨rfl, rfl⟩
        refine outline_issue (fun _ => rfl) (fun r u hu => ?_) fun e u hu => ?_
        · rcases hu with hu | ⟨_, h, _⟩
          · obtain ⟨-, rfl⟩ := Prod.mk.inj hu
            exact ⟨hs, rfl⟩
          · cases h
        · rcases hu with hu | ⟨_, _, hu⟩
          · cases (Prod.mk.inj hu).1
          · exact hs.error hu
      refine hbegin.bind (fun _ t ht => ?_) (fun _ t ht _ => ht.1) fun _ _ h => h.elim
      have heval : Outline (shown d) (fun _ t => t.commits = 0 → t.stable = d)
          (Prog.tryCatch (deleteRuns runs) failed) t :=
        (deleteRuns_outline ht).tryCatch (fun _ _ h => h) (fun e u hu => failed_outline e hu) fun _ _ h => h.elim
      exact heval.bind (fun _ u hu => print_outline hu) (fun _ _ h => h) fun _ _ h => h
  intro q t hrun hcommits
  have hleft := hrun.outline hscript
  cases q with
  | call o k => exact hleft.needs hcommits
  | ret a => exact hleft.ended_ret hcommits
  | raise e => exact hleft.ended_raise hcommits
  | exit c => exact hleft.ended_exit hcommits

/-- Deleting runs none of whose ports is locked is complete and atomic exactly when nothing
of moved belongs to them and no critical port has the number of one of their ports for its
name. -/
theorem deletion_exact_iff (d : Database) (hd : Schema d) (runs : List ℕ) :
    ((¬ Locked d runs → Deletes d runs) ∧ Atomic d runs) ↔
      Locked d runs ∨ (∀ m ∈ d.moved, m.run ∉ runs) ∧
        ∀ c ∈ d.critical, c.pkgname ∉ (portIds d runs).map toString := by
  rw [and_iff_left (atomic d runs)]
  constructor
  · intro h
    by_cases hlock : Locked d runs
    · exact .inl hlock
    · exact .inr ((deletes_iff hd.toRunKeys hlock).1 (h hlock))
  · rintro (h | h) hlock
    · exact absurd h hlock
    · exact (deletes_iff hd.toRunKeys hlock).2 h

def indexed (moved : List RunPart) : Database where
  runs := [⟨1, ["3.0", "amd64"]⟩]
  ports := [⟨7, 1, ["lang/perl5.42"]⟩]
  rows
    | .phaseResults => [⟨7, "11", ["fetch", "untested"]⟩, ⟨7, "12", ["build", "untested"]⟩]
    | .categories => [⟨7, "2", []⟩]
    | _ => []
  depends := []
  moved := moved
  defaults := [⟨1, "perl5", ["5.42"]⟩]
  critical := [⟨1, "amd64", "perl5"⟩]
  ports_key := by simp
  rows_key t _ := by cases t <;> simp
  critical_key := by simp

theorem indexed_schema (moved : List RunPart) (hmoved : ∀ m ∈ moved, m.run = 1) : Schema (indexed moved) where
  ports_run := by simp [indexed]
  moved_run m hm := ⟨_, List.mem_singleton_self _, (hmoved m hm).symm⟩
  defaults_run := by simp [indexed]
  rows_port t _ := by cases t <;> simp [indexed]
  depends_port := by simp [indexed]

theorem indexed_unlocked (moved : List RunPart) : ¬ Locked (indexed moved) [1] := by
  rintro ⟨l, hl, -⟩
  cases hl

theorem indexed_deleted : Deletes (indexed []) [1] := by
  have hcritical : ∀ c ∈ (indexed []).critical, c.pkgname ∉ (portIds (indexed []) [1]).map toString := by decide
  exact ((deletion_exact_iff (indexed []) (indexed_schema [] (by simp)) [1]).2 (.inr ⟨by simp [indexed], hcritical⟩)).1
    (indexed_unlocked [])

theorem moved_undeleted :
    ¬ ((¬ Locked (indexed [⟨1, "3", ["lang/perl5.40"]⟩]) [1] → Deletes (indexed [⟨1, "3", ["lang/perl5.40"]⟩]) [1]) ∧
      Atomic (indexed [⟨1, "3", ["lang/perl5.40"]⟩]) [1]) := by
  intro h
  have hd := indexed_schema [⟨1, "3", ["lang/perl5.40"]⟩] (by simp)
  have hmoved := ((deletes_iff hd.toRunKeys (indexed_unlocked _)).1 (h.1 (indexed_unlocked _))).1
  exact hmoved _ (List.mem_singleton_self _) (List.mem_singleton_self _)

end Transaction

end Mports.RunDeletion
