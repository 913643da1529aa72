import ContractModel.Json.Written
import ContractModel.SortedMap

/-! # Reading records from JSON

A record is read from an object: unknown members are ignored, a member with a default may be
missing, an optional one may also be `null`, and a known name may not be repeated. It is also read
from an array, which lists the values of its first members in order.
-/

namespace ContractModel.Json.Schema

variable {α : Type}

/-- Members as they are written. -/
abbrev Fields := List (String × Written)

/-- The members of a record with the given names. -/
def record (names : List String) : Written → Option Fields
  | .object ms => some ms
  | .array ws => if ws.length ≤ names.length then some (names.zip ws) else none
  | _ => none

/-- The member of a name, `none` inside if it is missing; fails if it is repeated. -/
def unique (name : String) (ms : Fields) : Option (Option Written) :=
  match ms.filter (·.1 == name) with
  | [] => some none
  | [m] => some (some m.2)
  | _ => none

def required (name : String) (read : Written → Option α) (ms : Fields) : Option α := do
  let w ← (← unique name ms)
  read w

def defaulted (name : String) (read : Written → Option α) (default : α) (ms : Fields) :
    Option α := do
  match ← unique name ms with
  | none => some default
  | some w => read w

/-- Reads `null` as absent. -/
def nullable (read : Written → Option α) : Written → Option (Option α)
  | .null => some none
  | w => (read w).map some

def optional (name : String) (read : Written → Option α) (ms : Fields) : Option (Option α) :=
  defaulted name (nullable read) none ms

def list (read : Written → Option α) : Written → Option (List α)
  | .array ws => ws.mapM read
  | _ => none

/-- A map keyed by member names; of a repeated name the last value counts. -/
def map (read : Written → Option α) : Written → Option (SortedMap String α)
  | .object ms => (ms.mapM fun m => (read m.2).map fun a => (m.1, a)).map SortedMap.ofList
  | _ => none

/-- Any value, with repeated names inside resolved. -/
def any (w : Written) : Option Json := w.value?.map normal

end ContractModel.Json.Schema

namespace ContractModel.Json

/-- The object of a sorted map. -/
def ofMap {α : Type} (write : α → Json) (m : SortedMap String α) : Json :=
  .object (m.entries.map fun e => (e.1, write e.2))

/-- A member that is left out when absent. -/
def member? {α : Type} (name : String) (write : α → Json) : Option α → Members
  | none => []
  | some a => [(name, write a)]

end ContractModel.Json
