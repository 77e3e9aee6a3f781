import Mathlib.Data.List.Basic

set_option autoImplicit false

namespace Mports.RunTables

/-- The tables with a column `port`; `phaseResults` is port_phase_results, `perms`
port_license_perms. -/
inductive Table where
  | events | logs | phaseLogs | phaseResults | categories | perms | masterSites | distfiles
  | restrictedDistfiles | locks
  deriving DecidableEq, Repr

/-- `key` is the column `id`, or the category or the perm in the tables without one. -/
structure Row where
  port : ℕ
  key : String
  columns : List String := []
  deriving DecidableEq, Repr

/-- The tables without a column `id`. -/
def Table.Paired (t : Table) : Prop := t = .categories ∨ t = .perms

instance (t : Table) : Decidable t.Paired := inferInstanceAs (Decidable (_ ∨ _))

def Table.primary (t : Table) (r : Row) : Option ℕ × String := (if t.Paired then some r.port else none, r.key)

structure RunRow where
  id : ℕ
  columns : List String := []
  deriving DecidableEq, Repr

structure PortRow where
  id : ℕ
  run : ℕ
  columns : List String := []
  deriving DecidableEq, Repr

structure Depend where
  port : ℕ
  dependency : ℕ
  type : String
  deriving DecidableEq, Repr

/-- A row of moved or of default_versions; `key` is the id or the name. -/
structure RunPart where
  run : ℕ
  key : String
  columns : List String := []
  deriving DecidableEq, Repr

structure Critical where
  id : ℕ
  arch : String
  pkgname : String
  deriving DecidableEq, Repr

structure Database where
  runs : List RunRow
  ports : List PortRow
  rows : Table → List Row
  depends : List Depend
  moved : List RunPart
  defaults : List RunPart
  critical : List Critical
  ports_key : ∀ x ∈ ports, ∀ y ∈ ports, x.id = y.id → x = y
  rows_key : ∀ t, ¬ t.Paired → ∀ x ∈ rows t, ∀ y ∈ rows t, x.key = y.key → x = y
  critical_key : ∀ x ∈ critical, ∀ y ∈ critical, x.id = y.id → x = y

@[ext] structure Keep where
  run : RunRow → Bool := fun _ => true
  port : PortRow → Bool := fun _ => true
  row : Table → Row → Bool := fun _ _ => true
  depend : Depend → Bool := fun _ => true
  moved : RunPart → Bool := fun _ => true
  default : RunPart → Bool := fun _ => true
  critical : Critical → Bool := fun _ => true

def Keep.and (k k' : Keep) : Keep where
  run x := k.run x && k'.run x
  port x := k.port x && k'.port x
  row t x := k.row t x && k'.row t x
  depend x := k.depend x && k'.depend x
  moved x := k.moved x && k'.moved x
  default x := k.default x && k'.default x
  critical x := k.critical x && k'.critical x

def Keep.all {α : Type} (xs : List α) (each : α → Keep) : Keep where
  run x := xs.all fun a => (each a).run x
  port x := xs.all fun a => (each a).port x
  row t x := xs.all fun a => (each a).row t x
  depend x := xs.all fun a => (each a).depend x
  moved x := xs.all fun a => (each a).moved x
  default x := xs.all fun a => (each a).default x
  critical x := xs.all fun a => (each a).critical x

namespace Database

def restrict (k : Keep) (d : Database) : Database where
  runs := d.runs.filter k.run
  ports := d.ports.filter k.port
  rows t := (d.rows t).filter (k.row t)
  depends := d.depends.filter k.depend
  moved := d.moved.filter k.moved
  defaults := d.defaults.filter k.default
  critical := d.critical.filter k.critical
  ports_key x hx y hy := d.ports_key x (List.mem_of_mem_filter hx) y (List.mem_of_mem_filter hy)
  rows_key t ht x hx y hy := d.rows_key t ht x (List.mem_of_mem_filter hx) y (List.mem_of_mem_filter hy)
  critical_key x hx y hy := d.critical_key x (List.mem_of_mem_filter hx) y (List.mem_of_mem_filter hy)

variable {d : Database} {k k' : Keep}

@[simp] theorem mem_runs {x : RunRow} : x ∈ (d.restrict k).runs ↔ x ∈ d.runs ∧ k.run x := List.mem_filter
@[simp] theorem mem_ports {x : PortRow} : x ∈ (d.restrict k).ports ↔ x ∈ d.ports ∧ k.port x := List.mem_filter
@[simp] theorem mem_rows {t : Table} {x : Row} : x ∈ (d.restrict k).rows t ↔ x ∈ d.rows t ∧ k.row t x :=
  List.mem_filter
@[simp] theorem mem_depends {x : Depend} : x ∈ (d.restrict k).depends ↔ x ∈ d.depends ∧ k.depend x := List.mem_filter
@[simp] theorem mem_moved {x : RunPart} : x ∈ (d.restrict k).moved ↔ x ∈ d.moved ∧ k.moved x := List.mem_filter
@[simp] theorem mem_defaults {x : RunPart} : x ∈ (d.restrict k).defaults ↔ x ∈ d.defaults ∧ k.default x :=
  List.mem_filter
@[simp] theorem mem_critical {x : Critical} : x ∈ (d.restrict k).critical ↔ x ∈ d.critical ∧ k.critical x :=
  List.mem_filter

theorem restrict_restrict : (d.restrict k).restrict k' = d.restrict (k.and k') := by
  simp only [restrict, Keep.and, List.filter_filter, Bool.and_comm]

theorem restrict_congr (hrun : ∀ x ∈ d.runs, k.run x = k'.run x) (hport : ∀ x ∈ d.ports, k.port x = k'.port x)
    (hrow : ∀ t, ∀ x ∈ d.rows t, k.row t x = k'.row t x) (hdepend : ∀ x ∈ d.depends, k.depend x = k'.depend x)
    (hmoved : ∀ x ∈ d.moved, k.moved x = k'.moved x) (hdefault : ∀ x ∈ d.defaults, k.default x = k'.default x)
    (hcritical : ∀ x ∈ d.critical, k.critical x = k'.critical x) : d.restrict k = d.restrict k' := by
  have hrows : (fun t => (d.rows t).filter (k.row t)) = fun t => (d.rows t).filter (k'.row t) :=
    funext fun t => List.filter_congr (hrow t)
  simp only [restrict, hrows, List.filter_congr hrun, List.filter_congr hport, List.filter_congr hdepend,
    List.filter_congr hmoved, List.filter_congr hdefault, List.filter_congr hcritical]

@[simp] theorem restrict_all : d.restrict {} = d := by
  simp [restrict]

theorem foldl_restrict {α : Type} (each : α → Keep) (xs : List α) (d : Database) :
    xs.foldl (fun d x => d.restrict (each x)) d = d.restrict (.all xs each) := by
  induction xs generalizing d with
  | nil => simp [Keep.all, restrict]
  | cons x xs ih =>
    rw [List.foldl_cons, ih, restrict_restrict]
    rfl

theorem primary_port {t : Table} {x y : Row} (hx : x ∈ d.rows t) (hy : y ∈ d.rows t)
    (h : t.primary x = t.primary y) : x.port = y.port := by
  simp only [Table.primary, Prod.mk.injEq] at h
  by_cases ht : t.Paired
  · simpa [ht] using h.1
  · exact congrArg Row.port (d.rows_key t ht x hx y hy h.2)

end Database

inductive Find where
  | rows (t : Table) (port : ℕ)
  | depender (port : ℕ)
  | dependency (port : ℕ)
  | critical (pkgname : String)
  | defaults (run : ℕ)
  deriving DecidableEq, Repr

/-- What `delete` names: the primary columns of an object. -/
inductive Object where
  | row (t : Table) (primary : Option ℕ × String)
  | depend (row : Depend)
  | critical (id : ℕ)
  | default (run : ℕ) (name : String)
  deriving DecidableEq, Repr

def search (d : Database) : Find → List Object
  | .rows t port => ((d.rows t).filter (·.port = port)).map fun r => .row t (t.primary r)
  | .depender port => (d.depends.filter (·.port = port)).map .depend
  | .dependency port => (d.depends.filter (·.dependency = port)).map .depend
  | .critical pkgname => (d.critical.filter (·.pkgname = pkgname)).map fun c => .critical c.id
  | .defaults run => (d.defaults.filter (·.run = run)).map fun v => .default v.run v.key

def Object.others : Object → Keep
  | .row t primary => { row := fun t' r => !(t' = t && t'.primary r = primary) }
  | .depend x => { depend := fun y => y ≠ x }
  | .critical id => { critical := fun c => c.id ≠ id }
  | .default run name => { default := fun v => !(v.run = run && v.key = name) }

def Find.others : Find → Keep
  | .rows t port => { row := fun t' r => !(t' = t && r.port = port) }
  | .depender port => { depend := fun x => x.port ≠ port }
  | .dependency port => { depend := fun x => x.dependency ≠ port }
  | .critical pkgname => { critical := fun c => c.pkgname ≠ pkgname }
  | .defaults run => { default := fun v => v.run ≠ run }

/-- What is found one by one is all that is asked for: the primary columns tell rows apart. -/
theorem foldl_search (d : Database) (q : Find) :
    (search d q).foldl (fun d x => d.restrict x.others) d = d.restrict q.others := by
  rw [Database.foldl_restrict]
  cases q with
  | rows t port =>
    refine Database.restrict_congr ?_ ?_ ?hrow ?_ ?_ ?_ ?_
    case hrow =>
      intro t' x hx
      simp only [Keep.all, search, Find.others, Object.others, List.all_map, Function.comp_def]
      rw [Bool.eq_iff_iff]
      simp only [List.all_eq_true, List.mem_filter, decide_eq_true_eq, Bool.not_eq_true', Bool.and_eq_false_imp,
        decide_eq_false_iff_not]
      constructor
      · rintro h rfl hport
        exact h x ⟨hx, hport⟩ rfl rfl
      · rintro h y ⟨hy, rfl⟩ rfl hprimary
        exact h rfl (Database.primary_port hx hy hprimary)
    all_goals simp [Keep.all, search, Find.others, Object.others]
  | depender port =>
    refine Database.restrict_congr ?_ ?_ ?_ ?hdepend ?_ ?_ ?_
    case hdepend =>
      intro x hx
      simp only [Keep.all, search, Find.others, Object.others, List.all_map, Function.comp_def]
      grind
    all_goals simp [Keep.all, search, Find.others, Object.others]
  | dependency port =>
    refine Database.restrict_congr ?_ ?_ ?_ ?hdepend ?_ ?_ ?_
    case hdepend =>
      intro x hx
      simp only [Keep.all, search, Find.others, Object.others, List.all_map, Function.comp_def]
      grind
    all_goals simp [Keep.all, search, Find.others, Object.others]
  | critical pkgname =>
    refine Database.restrict_congr ?_ ?_ ?_ ?_ ?_ ?_ ?hcritical
    case hcritical =>
      intro x hx
      simp only [Keep.all, search, Find.others, Object.others, List.all_map, Function.comp_def]
      have := d.critical_key x hx
      grind
    all_goals simp [Keep.all, search, Find.others, Object.others]
  | defaults run =>
    refine Database.restrict_congr ?_ ?_ ?_ ?_ ?_ ?hdefault ?_
    case hdefault =>
      intro x hx
      simp only [Keep.all, search, Find.others, Object.others, List.all_map, Function.comp_def]
      grind
    all_goals simp [Keep.all, search, Find.others, Object.others]

end Mports.RunTables
