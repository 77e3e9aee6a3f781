import Mathlib.Data.List.Nodup
import Mathlib.Logic.Function.Basic

set_option autoImplicit false

/-!
The tables of the Magus database that scheduling, building and recovery read or
write. Each is keyed as in schema.sql: one phase row, one lock and one phase log
for a port and a phase, one build log for a port.
-/
namespace Mports.MagusTables

abbrev PortId := ℕ
abbrev RunId := ℕ
abbrev MachineId := ℕ

inductive Phase where
  | fetch | build | test | scan
  deriving DecidableEq, Repr

namespace Phase

def names : List Phase := [fetch, build, test, scan]

def defaultWorkerOrder : List Phase := [build, fetch, scan, test]

theorem mem_names (ph : Phase) : ph ∈ names := by cases ph <;> decide

def text : Phase → String
  | fetch => "fetch"
  | build => "build"
  | test => "test"
  | scan => "scan"

/-- `ucfirst($phase)`. -/
def title : Phase → String
  | fetch => "Fetch"
  | build => "Build"
  | test => "Test"
  | scan => "Scan"

def ofText (s : String) : Option Phase := names.find? fun ph => ph.text = s

end Phase

inductive Status where
  | untested | running | pass | warn | fail | skip | internal
  deriving DecidableEq, Repr

namespace Status

def text : Status → String
  | untested => "untested"
  | running => "running"
  | pass => "pass"
  | warn => "warn"
  | fail => "fail"
  | skip => "skip"
  | internal => "internal"

/-- `status IN ('pass', 'warn')`: the port has a package. -/
def Good (st : Status) : Prop := st = pass ∨ st = warn

instance (st : Status) : Decidable st.Good := inferInstanceAs (Decidable (_ ∨ _))

theorem not_good_untested : ¬ Good untested := by decide
theorem not_good_internal : ¬ Good internal := by decide

end Status

/-- The identity columns of `ports`; the status column is `Db.status`. -/
structure PortRow where
  id : PortId
  run : RunId
  name : String
  version : String
  pkgname : String
  flavor : Option String := none
  deriving DecidableEq, Repr

structure Depend where
  port : PortId
  dependency : PortId
  type : String
  deriving DecidableEq, Repr

/-- What indexing leaves of a ports tree. The keys are those of schema.sql, and
indexing resolves a dependency only to a port of the same run. -/
structure Tree where
  ports : List PortRow
  depends : List Depend
  ports_key : (ports.map (·.id)).Nodup
  depends_key : depends.Nodup
  depends_run : ∀ d ∈ depends, ∃ p ∈ ports, ∃ q ∈ ports,
    p.id = d.port ∧ q.id = d.dependency ∧ p.run = q.run

namespace Tree

def empty : Tree := ⟨[], [], by simp, by simp, by simp⟩

def insertPort (T : Tree) (row : PortRow) : Option Tree :=
  if h : row.id ∈ T.ports.map (·.id) then none else
    some {
      ports := T.ports ++ [row]
      depends := T.depends
      ports_key := by
        simpa [List.nodup_append, T.ports_key] using fun p hp he => h (List.mem_map.2 ⟨p, hp, he⟩)
      depends_key := T.depends_key
      depends_run := by
        intro d hd
        obtain ⟨p, hp, q, hq, hr⟩ := T.depends_run d hd
        exact ⟨p, List.mem_append_left _ hp, q, List.mem_append_left _ hq, hr⟩ }

def SameRun (T : Tree) (d : Depend) : Prop :=
  ∃ p ∈ T.ports, ∃ q ∈ T.ports, p.id = d.port ∧ q.id = d.dependency ∧ p.run = q.run

instance (T : Tree) (d : Depend) : Decidable (T.SameRun d) :=
  inferInstanceAs (Decidable (∃ p ∈ T.ports, _))

def insertDepend (T : Tree) (d : Depend) : Option Tree :=
  if h : d ∉ T.depends ∧ T.SameRun d then
    some {
      ports := T.ports
      depends := T.depends ++ [d]
      ports_key := T.ports_key
      depends_key := by
        refine List.nodup_append.2 ⟨T.depends_key, List.nodup_singleton d, ?_⟩
        rintro x hx y hy rfl
        exact h.1 (List.mem_singleton.1 hy ▸ hx)
      depends_run := by
        intro x hx
        rcases List.mem_append.1 hx with hx | hx
        · exact T.depends_run x hx
        · exact List.mem_singleton.1 hx ▸ h.2 }
  else none

def retrieve (T : Tree) (id : PortId) : Option PortRow := T.ports.find? fun p => p.id = id

theorem retrieve_of_mem {T : Tree} {p : PortRow} (hp : p ∈ T.ports) :
    T.retrieve p.id = some p := by
  unfold retrieve
  cases h : T.ports.find? fun q => q.id = p.id with
  | none =>
    have hn := List.find?_eq_none.1 h p hp
    simp at hn
  | some q =>
    have hq := List.mem_of_find?_eq_some h
    have he : q.id = p.id := by simpa using List.find?_some h
    exact congrArg some (List.inj_on_of_nodup_map T.ports_key hq hp he)

theorem retrieve_mem {T : Tree} {id : PortId} {p : PortRow} (h : T.retrieve id = some p) :
    p ∈ T.ports ∧ p.id = id :=
  ⟨List.mem_of_find?_eq_some h, by simpa using List.find?_some h⟩

end Tree

structure PhaseRow where
  status : Status
  machine : Option MachineId
  started : Option ℕ
  finished : Option ℕ
  updated : ℕ
  deriving DecidableEq, Repr

/-- A fresh row: `insert({ status => 'untested' })`. -/
def PhaseRow.fresh (now : ℕ) : PhaseRow := ⟨.untested, none, none, none, now⟩

structure LockRow where
  id : ℕ
  machine : MachineId
  deriving DecidableEq, Repr

/-- A `Magus::Lock` object; `Db.lock` holds the row it was made from. -/
structure Lock where
  id : ℕ
  port : PortRow
  phase : Phase
  machine : MachineId
  deriving DecidableEq, Repr

structure EventRow where
  id : ℕ
  port : PortId
  phase : Phase
  type : String
  name : String
  msg : String
  machine : MachineId
  deriving DecidableEq, Repr

def put {α : Type} (f : PortId → Phase → α) (p : PortId) (ph : Phase) (v : α) :
    PortId → Phase → α :=
  Function.update f p (Function.update (f p) ph v)

@[simp] theorem put_same {α : Type} (f : PortId → Phase → α) (p : PortId) (ph : Phase) (v : α) :
    put f p ph v p ph = v := by
  simp [put]

theorem put_apply {α : Type} (f : PortId → Phase → α) (p q : PortId) (ph qh : Phase) (v : α) :
    put f p ph v q qh = if q = p ∧ qh = ph then v else f q qh := by
  unfold put
  by_cases hq : q = p
  · subst hq
    by_cases hh : qh = ph <;> simp [hh]
  · simp [hq]

theorem put_ne {α : Type} {f : PortId → Phase → α} {p q : PortId} {ph qh : Phase} {v : α}
    (h : q = p → qh ≠ ph) : put f p ph v q qh = f q qh := by
  rw [put_apply, if_neg fun ⟨hp, hh⟩ => h hp hh]

structure Db where
  tree : Tree
  status : PortId → Status
  phaseRow : PortId → Phase → Option PhaseRow
  lock : PortId → Phase → Option LockRow
  nextLock : ℕ
  log : PortId → Option String
  phaseLog : PortId → Phase → Option String
  events : List EventRow
  nextEvent : ℕ
  distfiles : PortId → List String
  /-- The package files under `PkgfilesRoot`, by run and file name. -/
  pkgfiles : List (RunId × String)
  now : ℕ

def pkgExtension : String := "mport"
def pkgfilesRoot : String := "/mnt/magus/packages"
def yaraRules : String := "/usr/magus/slave-data/mports/Tools/magus/yara/mports-shell.yar"

/-- `sprintf("%s-%s.%s", pkgname, version, PkgExtension)` below the run's directory. -/
def PortRow.pkgfile (p : PortRow) : RunId × String :=
  (p.run, p.pkgname ++ "-" ++ p.version ++ "." ++ pkgExtension)

def PortRow.pkgpath (p : PortRow) : String :=
  pkgfilesRoot ++ "/" ++ toString p.run ++ "/" ++ p.pkgfile.2

namespace Db

def empty : Db where
  tree := .empty
  status := fun _ => .untested
  phaseRow := fun _ _ => none
  lock := fun _ _ => none
  nextLock := 0
  log := fun _ => none
  phaseLog := fun _ _ => none
  events := []
  nextEvent := 0
  distfiles := fun _ => []
  pkgfiles := []
  now := 0

def phaseStatus (db : Db) (p : PortId) (ph : Phase) : Option Status :=
  (db.phaseRow p ph).map (·.status)

def PkgfileExists (db : Db) (row : PortRow) : Prop := row.pkgfile ∈ db.pkgfiles

instance (db : Db) (row : PortRow) : Decidable (db.PkgfileExists row) :=
  inferInstanceAs (Decidable (_ ∈ _))

def Locked (db : Db) (l : Lock) : Prop :=
  (db.lock l.port.id l.phase).map (·.id) = some l.id

instance (db : Db) (l : Lock) : Decidable (db.Locked l) := inferInstanceAs (Decidable (_ = _))

end Db
end Mports.MagusTables
