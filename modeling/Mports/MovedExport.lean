import Mathlib.Data.List.Forall2
import Mathlib.Data.List.Sort
import Mports.PerlText
import Mports.ReleaseTables

set_option autoImplicit false

/-!
The MOVED file: `moved_list` of the indexer, which fills the table, and the loop of
magus-bless that copies it to index.db. What PostgreSQL makes of a date is a parameter;
it has no answer for a text it does not accept.
-/
namespace Mports.MovedExport
open MagusTables PerlText
open ReleaseTables (asString)

/-- A row of `moved`, without its id. -/
structure Moved where
  run : RunId
  port : String
  movedTo : Option String
  date : Option String
  why : Option String
  deriving DecidableEq, Repr

/-- The table: ids are drawn from the sequence. -/
structure Table where
  next : ℕ
  rows : List (ℕ × Moved)
  below : ∀ row ∈ rows, row.1 < next
  ascending : rows.Pairwise fun r s => r.1 ≤ s.1

namespace Table

def push (T : Table) (m : Moved) : Table where
  next := T.next + 1
  rows := T.rows ++ [(T.next, m)]
  below := by
    intro row hrow
    rcases List.mem_append.1 hrow with hrow | hrow
    · exact Nat.lt_succ_of_lt (T.below row hrow)
    · simp only [List.mem_singleton] at hrow
      subst hrow
      exact Nat.lt_succ_self _
  ascending := by
    refine List.pairwise_append.2 ⟨T.ascending, by simp, fun row hrow row' hrow' => ?_⟩
    simp only [List.mem_singleton] at hrow'
    subst hrow'
    exact (T.below row hrow).le

def empty : Table := ⟨1, [], by simp, by simp⟩

end Table

/-- `varchar(n)`: too long a text is an error, unless only blanks are too many. -/
def varchar (n : ℕ) (s : String) : Option String :=
  if s.length ≤ n then some s
  else if (s.toList.drop n).all (· = ' ') then some (String.ofList (s.toList.take n))
  else none

def nullable (column : String → Option String) : Option String → Option (Option String)
  | none => some none
  | some s => (column s).map some

def skipped (line : List Char) : Bool :=
  line.head? = some '#' || line.all isSpace || line.head? = some '+'

/-- `split(/\|/, $line)`. The assignment to four variables limits it to five fields, so
that trailing empty ones stay. -/
def fields (line : List Char) : List String := (line.splitOn '|').map String.ofList

section Index
variable (timestamp : String → Option String) (run : RunId)

/-- `Magus::Moved->insert`, up to the id; `none` when the database refuses a value. -/
def insert (port : String) (movedTo date why : Option String) : Option Moved := do
  let port ← varchar 128 port
  let movedTo ← nullable (varchar 128) movedTo
  let date ← nullable timestamp date
  return ⟨run, port, movedTo, date, why⟩

def lines (text : String) : List (List Char) := text.toList.splitOn '\n'

end Index

/-- `SELECT ... FROM moved where run=%d order by id`. -/
def select (T : Table) (run : RunId) : List Moved :=
  ((T.rows.filter (·.2.run = run)).insertionSort fun r s => r.1 ≤ s.1).map Prod.snd

def accepted (text : String) : List (List Char) := (lines text).filter fun line => !skipped line

def field (line : List Char) (n : ℕ) : String := (fields line).getD n ""

/-- What is left of a name in a column of `n` characters: all of it, or what blanks go beyond. -/
def Stored (n : ℕ) (name stored : String) : Prop :=
  ∃ blanks, name.toList = stored.toList ++ blanks ∧ (∀ c ∈ blanks, c = ' ') ∧ (blanks ≠ [] → stored.length = n)

section Lines
variable {timestamp : String → Option String} {run : RunId} {line : List Char} {m : Moved}

end Lines

section Loops
variable {timestamp : String → Option String} {run : RunId}

end Loops

def sampleMoved : String :=
  "# Port|Moved to|Date|Why\nshells/mudsh||2009-12-28|Project disappeared from the Internet.\n" ++
    "mod_perl2|ap24-mod_perl2||Apache version specific\n"

end Mports.MovedExport
