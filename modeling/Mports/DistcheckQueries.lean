import Mports.ReleaseTables

set_option autoImplicit false

namespace Mports.DistcheckQueries
open MagusTables NullableSql ReleaseTables

/-- A row of `distfiles`, and one of `restricted_distfiles`. -/
structure Distfile where
  id : ℕ
  port : PortId
  filename : Option String
  deriving DecidableEq, Repr

structure Db where
  ports : List Port
  distfiles : List Distfile
  restrictedDistfiles : List Distfile

def blockedLicenses : List String := ["restricted", "other", "unknown", "agg", "NONE"]

/-- `ports p inner join distfiles d on p.id = d.port
left join restricted_distfiles rd on p.id = rd.port`. -/
def joined (db : Db) : List ((Port × Distfile) × Option Distfile) :=
  leftJoin (fun x rd => eq (some x.1.id) (some rd.port))
    (innerJoin (fun p d => eq (some p.id) (some d.port)) db.ports db.distfiles) db.restrictedDistfiles

/-- `ORDER BY p.name, d.id`. -/
def Before (x y : Port × Distfile) : Prop :=
  x.1.name < y.1.name ∨ x.1.name = y.1.name ∧ x.2.id ≤ y.2.id

instance : DecidableRel Before := fun _ _ => inferInstanceAs (Decidable (_ ∨ _))

def query1 (db : Db) (run : RunId) : List (Port × Distfile) :=
  ((keep (fun ((p, d), rd) =>
    (((eq (some p.run) (some run)).and (eq (some p.restricted) (some false))).and
      (notIn p.license blockedLicenses)).and ((settled p.status).and
        ((isNull (rd.bind (·.filename))).or (ne d.filename (rd.bind (·.filename))))))
    (joined db)).map Prod.fst).insertionSort Before

def safeRelativePath (path : String) : Bool :=
  let parts := path.toList.splitOn '/'
  path ≠ "" && parts.head? ≠ some [] && !parts.contains "..".toList

/-- The query string of a URL goes, and so does a tag after the last colon. -/
def normalizeDistfileName (filename : String) : String :=
  let name := filename.toList.takeWhile (· ≠ '?')
  let tag := (name.reverse.takeWhile (· ≠ ':')).reverse
  let rest := name.reverse.dropWhile (· ≠ ':')
  if rest ≠ [] ∧ '/' ∉ tag ∧ tag ≠ [] ∧ tag.all (fun c => c.isAlphanum || c = '_') then
    String.ofList rest.tail.reverse
  else String.ofList name

/-- `path.filename()`. -/
def fileName (path : String) : List Char := (path.toList.reverse.takeWhile (· ≠ '/')).reverse

/-- A directory: whether it is there, what exists in it, and the regular files that
`recursive_directory_iterator` comes to, relative to it. -/
structure Root where
  present : Bool
  has : String → Bool
  files : List String

def findDistfile (root : Root) (filename : String) : Option String :=
  let relative := normalizeDistfileName filename
  if safeRelativePath relative then
    if root.has relative then some relative
    else if root.present then root.files.find? fun file => fileName file = fileName relative
    else none
  else none

structure Mirror where
  dest : List String
  copied : List (Port × Distfile)
  existing : ℕ
  missing : ℕ
  restricted : ℕ
  failed : ℕ

/-- The body of the copy loop; `none` where `as<std::string>()` throws on NULL. -/
def copyRow (src : Root) (fails : String → Bool) (m : Mirror) (row : Port × Distfile) : Option Mirror :=
  match row.1.license, row.2.filename with
  | some _, some filename => some <| match findDistfile src filename with
    | none => { m with missing := m.missing + 1 }
    | some relative =>
      if src.has relative = false then { m with missing := m.missing + 1 }
      else if row.1.restricted then { m with restricted := m.restricted + 1 }
      else if relative ∈ m.dest then { m with existing := m.existing + 1 }
      else if fails relative then { m with failed := m.failed + 1 }
      else { m with dest := relative :: m.dest, copied := m.copied ++ [row] }
  | _, _ => none

def copyLoop (src : Root) (fails : String → Bool) : Mirror → List (Port × Distfile) → Mirror
  | m, [] => m
  | m, row :: rows => match copyRow src fails m row with
    | none => m
    | some m' => copyLoop src fails m' rows

def copied (db : Db) (run : RunId) (src : Root) (fails : String → Bool) (dest : List String) :
    List (Port × Distfile) :=
  (copyLoop src fails ⟨dest, [], 0, 0, 0, 0⟩ (query1 db run)).copied

section Copying
variable {src : Root} {fails : String → Bool} {m : Mirror} {row x : Port × Distfile}

end Copying

def Listed (db : Db) (p : Port) (d : Distfile) : Prop :=
  ∃ rd ∈ db.restrictedDistfiles, rd.port = p.id ∧ ∃ f, d.filename = some f ∧ rd.filename = some f

def Unlicensed (p : Port) : Prop := ∃ l ∈ blockedLicenses, p.license = some l

def Blocked (db : Db) (p : Port) (d : Distfile) : Prop :=
  p.restricted = true ∨ Unlicensed p ∨ Listed db p d

section Selection
variable {db : Db} {run : RunId} {p : Port} {d : Distfile}

end Selection

end Mports.DistcheckQueries
