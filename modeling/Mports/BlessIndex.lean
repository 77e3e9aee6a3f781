import Mports.ReleaseTables

set_option autoImplicit false

/-!
magus-bless: the loop that fills the packages, aliases and depends tables of index.db,
port by port. A statement of SQLite that fails ends the program before COMMIT.
-/
namespace Mports.BlessIndex
open MagusTables NullableSql ReleaseTables

structure Db where
  ports : List Port
  depends : List Depend

structure Package where
  pkg : String
  version : String
  license : String
  comment : String
  bundlefile : String
  hash : String
  type : ℕ
  deriving DecidableEq, Repr

structure Alias where
  aliasName : String
  pkg : String
  deriving DecidableEq, Repr

structure DependRow where
  pkg : String
  version : String
  dPkg : String
  dVersion : String
  deriving DecidableEq, Repr

structure Index where
  packages : List Package
  aliases : List Alias
  depends : List DependRow
  deriving DecidableEq, Repr

namespace Index

def empty : Index := ⟨[], [], []⟩

def append (i j : Index) : Index where
  packages := i.packages ++ j.packages
  aliases := i.aliases ++ j.aliases
  depends := i.depends ++ j.depends

end Index

/-- The package files that can be read, with their SHA256. -/
abbrev Disk := String → Option String

/-- What the second connection does when `load_depends` is called: it answers the query,
`is_open` is false, or `exec` throws. -/
inductive Reply where
  | answered | closed | failed
  deriving DecidableEq, Repr

inductive Report where
  | missing
  | removed
  | packaged
  | skipped
  deriving DecidableEq, Repr

/-- What became of a port, and the rows inserted for it. -/
structure Entry where
  port : Port
  report : Report
  rows : Index
  deriving DecidableEq, Repr

/-- `CONCAT(CONCAT_WS('-', pkgname, version), '.mport')`. -/
def bundlefile (p : Port) : String := p.pkgname ++ "-" ++ p.version ++ ".mport"

def packageRows (db : Db) (run : RunId) : List Port :=
  (keep (fun p => (eq (some p.run) (some run)).and (settled p.status)) db.ports).insertionSort
    fun p q => p.pkgname ≤ q.pkgname

/-- The query of `load_depends`; its WHERE leaves no row without `p2`. -/
def dependsQuery (db : Db) (run : RunId) (pkgName version : String) : List (String × String) :=
  ((keep (fun ((p1, d), p2) =>
    (((eq (p2.map (·.run)) (some run)).and (eq (some p1.run) (some run))).and
      ((built (some p1.status)).and (built (p2.map (·.status))))).and
        (((eq (some p1.pkgname) (some pkgName)).and (eq (some p1.version) (some version))).and
          (isIn (d.map (·.type)) ["run", "lib", "pkg"])))
    (leftJoin (fun ((_, d) : Port × Option Depend) p2 => eq (d.map (·.dependency)) (some p2.id))
      (leftJoin (fun p1 d => eq (some p1.id) (some d.port)) db.ports db.depends) db.ports)).filterMap
        fun (_, p2) => p2.map fun p => (p.pkgname, p.version)).dedup

/-- The rows `load_depends` inserts; `none` when it throws. -/
def loadDepends (db : Db) (run : RunId) (reply : Reply) (pkgName version : String) :
    Option (List DependRow) :=
  match reply with
  | .answered => some <| (dependsQuery db run pkgName version).map fun d =>
      ⟨pkgName, version, d.1, d.2⟩
  | .closed => some []
  | .failed => none

def packageRow (p : Port) (hash : String) : Package :=
  ⟨p.pkgname, p.version, asString p.license, asString p.description, bundlefile p, hash, 0⟩

/-- The body of the package loop; `load_depends` comes after two inserts. -/
def blessPort (db : Db) (run : RunId) (reply : Reply) (disk : Disk) (p : Port) : Disk × Entry :=
  match disk (bundlefile p) with
  | none => (disk, ⟨p, .missing, .empty⟩)
  | some hash =>
    if p.restricted then (Function.update disk (bundlefile p) none, ⟨p, .removed, .empty⟩)
    else match loadDepends db run reply p.pkgname p.version with
      | some depends => (disk, ⟨p, .packaged, ⟨[packageRow p hash], [⟨p.name, p.pkgname⟩], depends⟩⟩)
      | none => (disk, ⟨p, .skipped, ⟨[packageRow p hash], [⟨p.name, p.pkgname⟩], []⟩⟩)

def blessPorts (db : Db) (run : RunId) (reply : PortId → Reply) : Disk → List Port → List Entry
  | _, [] => []
  | disk, p :: rest =>
    let (disk', entry) := blessPort db run (reply p.id) disk p
    entry :: blessPorts db run reply disk' rest

def entries (db : Db) (run : RunId) (reply : PortId → Reply) (disk : Disk) : List Entry :=
  blessPorts db run reply disk (packageRows db run)

def index (log : List Entry) : Index := (log.map (·.rows)).foldr .append .empty

/-- A port that some earlier ports leave a package to: its file is there, and neither is
it restricted nor is one of them with the same file. -/
structure Packageable (disk : Disk) (earlier : List Port) (p : Port) : Prop where
  file : (disk (bundlefile p)).isSome
  unrestricted : p.restricted = false
  kept : ∀ q ∈ earlier, q.restricted = true → bundlefile q ≠ bundlefile p

def diskAfter (disk : Disk) (earlier : List Port) : Disk := fun file =>
  if ∃ q ∈ earlier, q.restricted = true ∧ bundlefile q = file then none else disk file

section Loop
variable {db : Db} {run : RunId} {reply : PortId → Reply} {disk : Disk} {p : Port}

@[simp] theorem diskAfter_nil : diskAfter disk [] = disk := by
  funext file
  simp [diskAfter]

theorem diskAfter_cons {earlier : List Port} :
    diskAfter (diskAfter disk [p]) earlier = diskAfter disk (p :: earlier) := by
  funext file
  by_cases h : ∃ q ∈ earlier, q.restricted = true ∧ bundlefile q = file
  · have h' : ∃ q ∈ p :: earlier, q.restricted = true ∧ bundlefile q = file := by
      obtain ⟨q, hq, hf⟩ := h
      exact ⟨q, List.mem_cons_of_mem _ hq, hf⟩
    simp only [diskAfter, if_pos h, if_pos h']
  · have h' : (∃ q ∈ p :: earlier, q.restricted = true ∧ bundlefile q = file) ↔
        ∃ q ∈ [p], q.restricted = true ∧ bundlefile q = file := by
      simp only [List.exists_mem_cons_iff, h, or_false, List.not_mem_nil, false_and, exists_false]
    simp only [diskAfter, if_neg h, h']

theorem blessPort_disk {r : Reply} : (blessPort db run r disk p).1 = diskAfter disk [p] := by
  unfold blessPort
  split
  · rename_i hfile
    funext file
    by_cases h : bundlefile p = file
    · subst h
      simp [diskAfter, hfile]
    · simp [diskAfter, h]
  · split_ifs with hr
    · funext file
      by_cases h : bundlefile p = file
      · simp [diskAfter, hr, h]
      · simp [diskAfter, h, Function.update_of_ne (Ne.symm h)]
    · have hkeep : diskAfter disk [p] = disk := by
        funext file
        simp [diskAfter, hr]
      cases r <;> simp [loadDepends, hkeep]

theorem mem_blessPorts {rows : List Port} {entry : Entry} : entry ∈ blessPorts db run reply disk rows ↔
    ∃ earlier p later, rows = earlier ++ p :: later ∧
      entry = (blessPort db run (reply p.id) (diskAfter disk earlier) p).2 := by
  induction rows generalizing disk with
  | nil => simp [blessPorts]
  | cons q rows ih =>
    simp only [blessPorts, List.mem_cons, ih, blessPort_disk, diskAfter_cons]
    constructor
    · rintro (rfl | ⟨earlier, p, later, rfl, rfl⟩)
      · exact ⟨[], q, rows, rfl, by simp⟩
      · exact ⟨q :: earlier, p, later, rfl, rfl⟩
    · rintro ⟨earlier, p, later, hrows, rfl⟩
      cases earlier with
      | nil =>
        obtain ⟨rfl, rfl⟩ := List.cons.inj hrows
        exact .inl (by simp)
      | cons q' earlier =>
        obtain ⟨rfl, rfl⟩ := List.cons.inj hrows
        exact .inr ⟨earlier, p, later, rfl, rfl⟩

theorem diskAfter_kept {earlier : List Port} {file : String}
    (h : ∀ q ∈ earlier, q.restricted = true → bundlefile q ≠ file) :
    diskAfter disk earlier file = disk file := by
  refine if_neg ?_
  rintro ⟨q, hq, hr, hfile⟩
  exact h q hq hr hfile

variable (db run) (r : Reply)

/-- What a packageable port leaves: the rows of a package, and of its depends if
`load_depends` gets through. -/
theorem blessPort_packageable {earlier : List Port} (h : Packageable disk earlier p) :
    ∃ hash, disk (bundlefile p) = some hash ∧ (blessPort db run r (diskAfter disk earlier) p).2 =
      match loadDepends db run r p.pkgname p.version with
      | some depends => ⟨p, .packaged, ⟨[packageRow p hash], [⟨p.name, p.pkgname⟩], depends⟩⟩
      | none => ⟨p, .skipped, ⟨[packageRow p hash], [⟨p.name, p.pkgname⟩], []⟩⟩ := by
  obtain ⟨hash, hfile⟩ := Option.isSome_iff_exists.1 h.file
  refine ⟨hash, hfile, ?_⟩
  have hafter : diskAfter disk earlier (bundlefile p) = some hash := (diskAfter_kept h.kept).trans hfile
  simp only [blessPort, hafter, h.unrestricted, Bool.false_eq_true, if_false]
  cases loadDepends db run r p.pkgname p.version <;> rfl

theorem blessPort_left_out {earlier : List Port} (h : ¬ Packageable disk earlier p) :
    (blessPort db run r (diskAfter disk earlier) p).2.report ≠ .packaged ∧
      (blessPort db run r (diskAfter disk earlier) p).2.rows = .empty := by
  unfold blessPort
  split
  · exact ⟨by simp, rfl⟩
  · rename_i hash hafter
    split_ifs with hr
    · exact ⟨by simp, rfl⟩
    · -- the file was found, so no earlier port has removed it
      exfalso
      unfold diskAfter at hafter
      split_ifs at hafter with hremoved
      refine h ⟨by simp [hafter], by simpa using hr, fun q hq hr' hfile => ?_⟩
      exact hremoved ⟨q, hq, hr', hfile⟩

end Loop

section Rows
variable {db : Db} {run : RunId} {reply : PortId → Reply} {disk : Disk}

theorem index_cons {e : Entry} {log : List Entry} :
    index (e :: log) = e.rows.append (index log) := rfl

theorem mem_index_packages {log : List Entry} {x : Package} :
    x ∈ (index log).packages ↔ ∃ e ∈ log, x ∈ e.rows.packages := by
  induction log with
  | nil => simp [index, Index.empty]
  | cons e log ih =>
    simp [index_cons, Index.append, ih]

theorem mem_index_depends {log : List Entry} {x : DependRow} :
    x ∈ (index log).depends ↔ ∃ e ∈ log, x ∈ e.rows.depends := by
  induction log with
  | nil => simp [index, Index.empty]
  | cons e log ih =>
    simp [index_cons, Index.append, ih]

/-- Some port of that name and version is packageable when its turn comes. -/
def Packaged (db : Db) (run : RunId) (disk : Disk) (name version : String) : Prop :=
  ∃ earlier p later, packageRows db run = earlier ++ p :: later ∧ Packageable disk earlier p ∧
    p.pkgname = name ∧ p.version = version

theorem packaged_iff {name version : String} : Packaged db run disk name version ↔
    ∃ x ∈ (index (entries db run reply disk)).packages, x.pkg = name ∧ x.version = version := by
  simp only [mem_index_packages, entries, mem_blessPorts]
  constructor
  · rintro ⟨earlier, p, later, hrows, hp, hname, hversion⟩
    obtain ⟨hash, -, hentry⟩ := blessPort_packageable db run (reply p.id) hp
    refine ⟨packageRow p hash, ⟨_, ⟨earlier, p, later, hrows, rfl⟩, ?_⟩, hname, hversion⟩
    rw [hentry]
    split <;> simp
  · rintro ⟨x, ⟨e, ⟨earlier, p, later, hrows, rfl⟩, hx⟩, hname, hversion⟩
    by_cases hp : Packageable disk earlier p
    · obtain ⟨hash, -, hentry⟩ := blessPort_packageable db run (reply p.id) hp
      have hrow : x = packageRow p hash := by
        rw [hentry] at hx
        split at hx <;> simpa using hx
      subst hrow
      exact ⟨earlier, p, later, hrows, hp, hname, hversion⟩
    · rw [(blessPort_left_out db run (reply p.id) hp).2] at hx
      simp [Index.empty] at hx

theorem mem_depends {x : DependRow} (h : x ∈ (index (entries db run reply disk)).depends) :
    Packaged db run disk x.pkg x.version ∧
      (x.dPkg, x.dVersion) ∈ dependsQuery db run x.pkg x.version := by
  simp only [mem_index_depends, entries, mem_blessPorts] at h
  obtain ⟨e, ⟨earlier, p, later, hrows, rfl⟩, hx⟩ := h
  by_cases hp : Packageable disk earlier p
  · obtain ⟨hash, -, hentry⟩ := blessPort_packageable db run (reply p.id) hp
    rw [hentry] at hx
    cases hr : reply p.id with
    | answered =>
      simp only [hr, loadDepends, List.mem_map] at hx
      obtain ⟨d, hd, rfl⟩ := hx
      exact ⟨⟨earlier, p, later, hrows, hp, rfl, rfl⟩, hd⟩
    | closed => simp [hr, loadDepends] at hx
    | failed => simp [hr, loadDepends] at hx
  · rw [(blessPort_left_out db run (reply p.id) hp).2] at hx
    simp [Index.empty] at hx

theorem mem_dependsQuery {pkgName version : String} {x : String × String} :
    x ∈ dependsQuery db run pkgName version ↔
      ∃ p1 ∈ db.ports, ∃ d ∈ db.depends, ∃ p2 ∈ db.ports, d.port = p1.id ∧ d.dependency = p2.id ∧
        p1.run = run ∧ p2.run = run ∧ p1.status.Good ∧ p2.status.Good ∧
        p1.pkgname = pkgName ∧ p1.version = version ∧ d.type ∈ ["run", "lib", "pkg"] ∧
          x = (p2.pkgname, p2.version) := by
  simp only [dependsQuery, List.mem_dedup, List.mem_filterMap, mem_keep]
  constructor
  · rintro ⟨⟨⟨p1, d⟩, p2⟩, ⟨hjoined, hwhere⟩, hx⟩
    cases p2 with
    | none => simp at hx
    | some p2 =>
      cases d with
      | none => simp at hwhere
      | some d =>
        simp only [mem_leftJoin_some, holds_eq, Option.map_some, Option.some.injEq] at hjoined
        simp [holds_built] at hwhere hx
        grind
  · rintro ⟨p1, hp1, d, hd, p2, hp2, hport, hdependency, hrun1, hrun2, hgood1, hgood2, hname, hversion,
      htype, rfl⟩
    refine ⟨((p1, some d), some p2), ⟨?_, ?_⟩, by simp⟩
    · simp [mem_leftJoin_some, *]
    · simp only [List.mem_cons, List.not_mem_nil, or_false] at htype
      simp [holds_built, *]

theorem mem_packageRows {p : Port} :
    p ∈ packageRows db run ↔ p ∈ db.ports ∧ p.run = run ∧ (settled p.status).Holds := by
  simp [packageRows, eq_comm]

end Rows

/-- The depends table names packages on its left. On its right it names ports of the run
that have been built, and a package exactly if such a port is packageable at its turn. -/
theorem depends_packaged_iff (db : Db) (run : RunId) (reply : PortId → Reply) (disk : Disk) :
    ∀ x ∈ (index (entries db run reply disk)).depends,
      (∃ y ∈ (index (entries db run reply disk)).packages, y.pkg = x.pkg ∧ y.version = x.version) ∧
      (∃ q ∈ packageRows db run, q.status.Good ∧ q.pkgname = x.dPkg ∧ q.version = x.dVersion) ∧
      ((∃ y ∈ (index (entries db run reply disk)).packages, y.pkg = x.dPkg ∧ y.version = x.dVersion) ↔
        Packaged db run disk x.dPkg x.dVersion) := by
  intro x hx
  obtain ⟨hleft, hright⟩ := mem_depends hx
  refine ⟨packaged_iff.1 hleft, ?_, packaged_iff.symm⟩
  obtain ⟨-, -, d, -, q, hq, -, -, -, hrun, -, hgood, -, -, -, heq⟩ := mem_dependsQuery.1 hright
  have hnames := Prod.mk.inj heq
  exact ⟨q, mem_packageRows.2 ⟨hq, hrun, settled_of_good hgood⟩, hgood, hnames.1.symm, hnames.2.symm⟩

/-- A library that is `restricted`, and a program that needs it. -/
def linkedDb (restricted : Bool) : Db where
  ports := [⟨1, 1, "devel/libgeo", "libgeo", "2.1", some "Geometry", some "mit", restricted, .pass⟩,
    ⟨2, 1, "math/solid", "solid", "1.0", some "Solids", some "mit", false, .pass⟩]
  depends := [⟨2, 1, "lib"⟩]

def linkedDisk : Disk := fun file =>
  if file = "libgeo-2.1.mport" ∨ file = "solid-1.0.mport" then some "c0ffee" else none

theorem linked_closed : ∃ y ∈ (index (entries (linkedDb false) 1 (fun _ => .answered) linkedDisk)).packages,
    y.pkg = "libgeo" ∧ y.version = "2.1" := by
  have hx : (⟨"solid", "1.0", "libgeo", "2.1"⟩ : DependRow) ∈
      (index (entries (linkedDb false) 1 (fun _ => .answered) linkedDisk)).depends := by decide +kernel
  refine (depends_packaged_iff _ _ _ _ _ hx).2.2.2 ⟨[], ⟨1, 1, "devel/libgeo", "libgeo", "2.1",
    some "Geometry", some "mit", false, .pass⟩, [⟨2, 1, "math/solid", "solid", "1.0", some "Solids",
    some "mit", false, .pass⟩], by decide +kernel, ⟨?_, rfl, ?_⟩, rfl, rfl⟩
  · decide +kernel
  · simp

/-- The package of the restricted library is removed, and the program still depends on it. -/
theorem linked_dangling :
    (∀ d ∈ (linkedDb true).depends,
      ∃ q ∈ (linkedDb true).ports, q.id = d.dependency ∧ q.run = 1 ∧ q.status.Good) ∧
    ∃ x ∈ (index (entries (linkedDb true) 1 (fun _ => .answered) linkedDisk)).depends,
      ∀ y ∈ (index (entries (linkedDb true) 1 (fun _ => .answered) linkedDisk)).packages,
        ¬ (y.pkg = x.dPkg ∧ y.version = x.dVersion) := by
  decide +kernel

def portRows (db : Db) (run : RunId) (p : Port) (hash : String) : Index where
  packages := [packageRow p hash]
  aliases := [⟨p.name, p.pkgname⟩]
  depends := (dependsQuery db run p.pkgname p.version).map fun d => ⟨p.pkgname, p.version, d.1, d.2⟩

/-- A skipped port has no rows, a packaged one all, and any other none. -/
structure Atomic (db : Db) (run : RunId) (disk : Disk) (e : Entry) : Prop where
  packaged : e.report = .packaged → ∃ hash, disk (bundlefile e.port) = some hash ∧
    e.rows = portRows db run e.port hash
  others : e.report ≠ .packaged → e.rows = .empty

/-- The call of `load_depends` for a port does not throw, and it finds the connection
open where the query has rows. -/
def Served (db : Db) (run : RunId) (r : Reply) (p : Port) : Prop :=
  r ≠ .failed ∧ (r = .closed → dependsQuery db run p.pkgname p.version = [])

section Atomicity
variable {db : Db} {run : RunId} {disk : Disk} {p : Port} {r : Reply} {earlier : List Port}

theorem atomic_iff_served (hp : Packageable disk earlier p) :
    Atomic db run disk (blessPort db run r (diskAfter disk earlier) p).2 ↔ Served db run r p := by
  obtain ⟨hash, hfile, hentry⟩ := blessPort_packageable db run r hp
  rw [hentry]
  cases r with
  | answered =>
    refine ⟨fun _ => ⟨by simp, by simp⟩, fun _ => ⟨fun _ => ?_, fun h => absurd rfl h⟩⟩
    exact ⟨hash, hfile, rfl⟩
  | closed =>
    constructor
    · intro h
      obtain ⟨_, -, hrows⟩ := h.packaged rfl
      have hdepends := congrArg Index.depends hrows
      exact ⟨by simp, fun _ => by simpa [loadDepends, portRows] using hdepends⟩
    · intro h
      refine ⟨fun _ => ⟨hash, hfile, ?_⟩, fun h => absurd rfl h⟩
      simp [portRows, loadDepends, h.2 rfl]
  | failed =>
    constructor
    · intro h
      have hrows := congrArg Index.packages (h.others (by simp [loadDepends]))
      simp [loadDepends, Index.empty] at hrows
    · exact fun h => absurd rfl h.1

end Atomicity

/-- Blessing is atomic per port if and only if the second connection serves every port
that comes to `load_depends`. -/
theorem atomic_iff (db : Db) (run : RunId) (reply : PortId → Reply) (disk : Disk) :
    (∀ e ∈ entries db run reply disk, Atomic db run disk e) ↔
      ∀ earlier p later, packageRows db run = earlier ++ p :: later → Packageable disk earlier p →
        Served db run (reply p.id) p := by
  simp only [entries, mem_blessPorts]
  constructor
  · intro h earlier p later hrows hp
    exact (atomic_iff_served hp).1 (h _ ⟨earlier, p, later, hrows, rfl⟩)
  · rintro h e ⟨earlier, p, later, hrows, rfl⟩
    by_cases hp : Packageable disk earlier p
    · exact (atomic_iff_served hp).2 (h earlier p later hrows hp)
    · obtain ⟨hreport, hempty⟩ := blessPort_left_out db run (reply p.id) hp
      exact ⟨fun hpackaged => absurd hpackaged hreport, fun _ => hempty⟩

/-- The connection is lost during the query for the program: it is skipped, and has a row
in packages. -/
theorem linked_half_blessed :
    ∃ e ∈ entries (linkedDb false) 1 (fun p => if p = 2 then .failed else .answered) linkedDisk,
      e.report = .skipped ∧ e.port.pkgname = "solid" ∧
        ∃ x ∈ (index (entries (linkedDb false) 1 (fun p => if p = 2 then .failed else .answered)
          linkedDisk)).packages, x ∈ e.rows.packages := by
  decide +kernel
end Mports.BlessIndex
