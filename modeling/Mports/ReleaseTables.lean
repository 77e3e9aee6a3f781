import Mports.MagusTables
import Mports.NullableSql

set_option autoImplicit false

namespace Mports.ReleaseTables
open MagusTables NullableSql

structure Port where
  id : PortId
  run : RunId
  name : String
  pkgname : String
  version : String
  description : Option String
  license : Option String
  restricted : Bool
  status : Status
  deriving DecidableEq, Repr

/-- `as(string())`, which reads NULL as the empty text. -/
def asString (column : Option String) : String := column.getD ""

/-- `status!='internal' AND status!='untested' AND status!='fail'`. -/
def settled (st : Status) : Truth :=
  ((ne (some st) (some .internal)).and (ne (some st) (some .untested))).and (ne (some st) (some .fail))

/-- `status = 'pass' or status = 'warn'`, NULL where a left join found no port. -/
def built (st : Option Status) : Truth := (eq st (some .pass)).or (eq st (some .warn))

theorem holds_built {st : Option Status} : (built st).Holds ↔ ∃ s, st = some s ∧ s.Good := by
  cases st <;> simp [built, Status.Good, eq_comm]

theorem settled_of_good {st : Status} (h : st.Good) : (settled st).Holds := by
  rcases h with rfl | rfl <;> decide

end Mports.ReleaseTables
