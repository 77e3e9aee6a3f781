import Mports.MagusPort

set_option autoImplicit false

namespace Mports.MagusReady
open MagusTables MagusDepends

def DependsReady (db : Db) (accept : String → Bool) (p : PortId) : Prop :=
  ∀ d ∈ db.tree.depends, d.port = p → accept d.type →
    (db.status d.dependency).Good ∧ db.lock d.dependency .build = none

instance (db : Db) (accept : String → Bool) (p : PortId) : Decidable (DependsReady db accept p) :=
  inferInstanceAs (Decidable (∀ d ∈ _, _))

/-- The view `ready_ports`: nothing asks how the fetch phase went, or whether it is over. -/
def ReadyBuild (db : Db) (row : PortRow) : Prop :=
  (db.phaseRow row.id .fetch).isSome ∧ db.phaseStatus row.id .fetch ≠ some .untested ∧
    db.status row.id = .untested ∧ db.lock row.id .build = none ∧ DependsReady db nonTest row.id

def ReadyFetch (db : Db) (row : PortRow) : Prop :=
  db.phaseStatus row.id .fetch = some .untested ∧ db.lock row.id .fetch = none ∧
    DependsReady db (fun type => type = "fetch") row.id

def ReadyTest (db : Db) (row : PortRow) : Prop :=
  db.phaseStatus row.id .test = some .untested ∧ (db.status row.id).Good ∧
    db.lock row.id .test = none ∧ DependsReady db (fun type => type = "test") row.id

def ReadyScan (db : Db) (row : PortRow) : Prop :=
  db.phaseStatus row.id .scan = some .untested ∧ (db.status row.id).Good ∧
    db.lock row.id .scan = none

instance (db : Db) (row : PortRow) : Decidable (ReadyBuild db row) :=
  inferInstanceAs (Decidable (_ ∧ _ ∧ _ ∧ _ ∧ _))

instance (db : Db) (row : PortRow) : Decidable (ReadyFetch db row) :=
  inferInstanceAs (Decidable (_ ∧ _ ∧ _))

instance (db : Db) (row : PortRow) : Decidable (ReadyTest db row) :=
  inferInstanceAs (Decidable (_ ∧ _ ∧ _ ∧ _))

instance (db : Db) (row : PortRow) : Decidable (ReadyScan db row) :=
  inferInstanceAs (Decidable (_ ∧ _ ∧ _))

def Ready (db : Db) : Phase → PortRow → Prop
  | .fetch => ReadyFetch db
  | .build => ReadyBuild db
  | .test => ReadyTest db
  | .scan => ReadyScan db

instance (db : Db) : (ph : Phase) → (row : PortRow) → Decidable (Ready db ph row)
  | .fetch, row => inferInstanceAs (Decidable (ReadyFetch db row))
  | .build, row => inferInstanceAs (Decidable (ReadyBuild db row))
  | .test, row => inferInstanceAs (Decidable (ReadyTest db row))
  | .scan, row => inferInstanceAs (Decidable (ReadyScan db row))

def readyPorts (db : Db) (run : RunId) (ph : Phase) : List PortRow :=
  db.tree.ports.filter fun row => row.run = run ∧ Ready db ph row

def priority (T : Tree) (row : PortRow) : ℕ :=
  (T.depends.filter fun d => d.dependency = row.id).length

/-- `ORDER BY priority desc, ports.name asc` for a build, by name otherwise. -/
def Precedes (T : Tree) (ph : Phase) (a b : PortRow) : Prop :=
  (ph = .build ∧ priority T b < priority T a) ∨
    (ph = .build → priority T a = priority T b) ∧ a.name < b.name

instance (T : Tree) (ph : Phase) (a b : PortRow) : Decidable (Precedes T ph a b) :=
  inferInstanceAs (Decidable ((_ ∧ _) ∨ (_ → _) ∧ _))

/-- `get_ready_port` may return this port: ties in the order are anyone's. -/
def GetReadyPort (db : Db) (run : RunId) (ph : Phase) (row : PortRow) : Prop :=
  row ∈ readyPorts db run ph ∧ ∀ other ∈ readyPorts db run ph, ¬ Precedes db.tree ph other row

instance (db : Db) (run : RunId) (ph : Phase) (row : PortRow) :
    Decidable (GetReadyPort db run ph row) :=
  inferInstanceAs (Decidable (_ ∧ ∀ other ∈ _, _))

/-- `_worker_phases` for a configured list. -/
def workerPhases (configured : Option (List String)) : List Phase :=
  let phases := match configured with
    | some names => names.filterMap Phase.ofText
    | none => Phase.defaultWorkerOrder
  if phases = [] then [.build] else phases

/-- What the SELECTs of one round of `get_ready_lock` may come to. -/
def Selects (db : Db) (run : RunId) (phases : List Phase) (ph : Phase) (row : PortRow) : Prop :=
  ph ∈ phases ∧ (∀ earlier ∈ phases.takeWhile (· ≠ ph), readyPorts db run earlier = []) ∧
    GetReadyPort db run ph row

instance (db : Db) (run : RunId) (phases : List Phase) (ph : Phase) (row : PortRow) :
    Decidable (Selects db run phases ph row) :=
  inferInstanceAs (Decidable (_ ∧ (∀ earlier ∈ _, _) ∧ _))

theorem Selects.ready {db : Db} {run : RunId} {phases : List Phase} {ph : Phase} {row : PortRow}
    (h : Selects db run phases ph row) : row ∈ db.tree.ports ∧ row.run = run ∧ Ready db ph row := by
  obtain ⟨hmem, hready⟩ := List.mem_filter.1 h.2.2.1
  exact ⟨hmem, by simpa using hready⟩

/-- `Run::is_empty`. -/
def IsEmpty (db : Db) (run : RunId) : Prop :=
  (∀ row ∈ db.tree.ports, row.run = run → db.lock row.id .build = none) ∧
    readyPorts db run .build = []

instance (db : Db) (run : RunId) : Decidable (IsEmpty db run) :=
  inferInstanceAs (Decidable ((∀ row ∈ _, _) ∧ _))

/-- `Magus::Lock->search(machine => ...)`. -/
def machineLocks (db : Db) (machine : MachineId) : List Lock :=
  db.tree.ports.flatMap fun p => Phase.names.filterMap fun ph =>
    (db.lock p.id ph).bind fun r =>
      if r.machine = machine then some ⟨r.id, p, ph, r.machine⟩ else none

theorem mem_machineLocks {db : Db} {machine : MachineId} {l : Lock} :
    l ∈ machineLocks db machine ↔
      l.port ∈ db.tree.ports ∧ l.machine = machine ∧
        db.lock l.port.id l.phase = some ⟨l.id, machine⟩ := by
  simp only [machineLocks, List.mem_flatMap, List.mem_filterMap, Option.bind_eq_some_iff,
    Option.ite_none_right_eq_some, Option.some.injEq]
  constructor
  · rintro ⟨p, hp, ph, _, r, hr, hm, rfl⟩
    exact ⟨hp, hm, hr.trans (by rw [← hm])⟩
  · rintro ⟨hp, rfl, hr⟩
    exact ⟨l.port, hp, l.phase, Phase.mem_names _, _, hr, rfl, rfl⟩

end Mports.MagusReady
