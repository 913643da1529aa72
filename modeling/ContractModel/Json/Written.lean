import ContractModel.Json.Basic

/-! # JSON as it is written

A text can be well formed and still have no value in places. Only a reader who looks at such a place
is stopped by it, so reading works on what is written. A value is written as itself, and what is
written has a value if every place in it has.
-/

namespace ContractModel

inductive Json.Written where
  /-- A place without a value: a string with half a surrogate pair, a number out of range, an object
  with such a name, or an array or object that is nested too deeply. -/
  | unreadable
  | null
  | bool (value : Bool)
  | number (value : Json.Number)
  | string (value : String)
  | array (items : List Json.Written)
  | object (members : List (String × Json.Written))
  deriving Inhabited, BEq, Repr

namespace Json.Written

def asString? : Written → Option String
  | .string s => some s
  | _ => none

def asBool? : Written → Option Bool
  | .bool b => some b
  | _ => none

/-- An unsigned 64-bit integer. -/
def asWord? : Written → Option Nat
  | .number n => (Json.number n).asWord?
  | _ => none

/-- The object of members, some of whose names may have no value. -/
def ofMembers (ms : List (Option String × Written)) : Written :=
  match ms.mapM fun m => m.1.map fun name => (name, m.2) with
  | some ms => .object ms
  | none => .unreadable

mutual

def value? : Written → Option Json
  | .unreadable => none
  | .null => some .null
  | .bool b => some (.bool b)
  | .number n => some (.number n)
  | .string s => some (.string s)
  | .array ws => (itemValues? ws).map .array
  | .object ms => (memberValues? ms).map .object

def itemValues? : List Written → Option (List Json)
  | [] => some []
  | w :: ws => do return (← value? w) :: (← itemValues? ws)

def memberValues? : List (String × Written) → Option Members
  | [] => some []
  | (name, w) :: ms => do return (name, ← value? w) :: (← memberValues? ms)

end

mutual

/-- How many objects and arrays are nested. -/
def depth : Written → Nat
  | .array ws => depthItems ws + 1
  | .object ms => depthMembers ms + 1
  | _ => 0

def depthItems : List Written → Nat
  | [] => 0
  | w :: ws => max (depth w) (depthItems ws)

def depthMembers : List (String × Written) → Nat
  | [] => 0
  | (_, w) :: ms => max (depth w) (depthMembers ms)

end

end Json.Written

namespace Json

mutual

/-- A value as it is written. -/
def written : Json → Written
  | .null => .null
  | .bool b => .bool b
  | .number n => .number n
  | .string s => .string s
  | .array js => .array (writtenItems js)
  | .object ms => .object (writtenMembers ms)

def writtenItems : List Json → List Written
  | [] => []
  | j :: js => written j :: writtenItems js

def writtenMembers : Members → List (String × Written)
  | [] => []
  | (name, j) :: ms => (name, written j) :: writtenMembers ms

end

mutual

theorem value?_written (j : Json) : j.written.value? = some j := by
  cases j with
  | array js => simp [written, Written.value?, itemValues?_written js]
  | object ms => simp [written, Written.value?, memberValues?_written ms]
  | _ => rfl

theorem itemValues?_written (js : List Json) :
    Written.itemValues? (writtenItems js) = some js := by
  cases js with
  | nil => rfl
  | cons j js => simp [writtenItems, Written.itemValues?, value?_written j, itemValues?_written js]

theorem memberValues?_written (ms : Members) :
    Written.memberValues? (writtenMembers ms) = some ms := by
  cases ms with
  | nil => rfl
  | cons m ms =>
    simp [writtenMembers, Written.memberValues?, value?_written m.2, memberValues?_written ms]

end

end Json

end ContractModel
