/-! # JSON values

A JSON value keeps the order of its object members. Numbers are 64-bit integers, signed or unsigned,
or binary64 values; an object as read from text may repeat a name.
-/

namespace ContractModel

inductive Json.Number where
  | int (value : Int)
  | float (bits : UInt64)
  deriving DecidableEq, Repr

inductive Json where
  | null
  | bool (value : Bool)
  | number (value : Json.Number)
  | string (value : String)
  | array (items : List Json)
  | object (members : List (String × Json))
  deriving Inhabited, BEq, Repr

namespace Json

abbrev Members := List (String × Json)

def ofNat (n : Nat) : Json := .number (.int n)
def ofInt (n : Int) : Json := .number (.int n)

instance : Coe String Json := ⟨.string⟩
instance : Coe Bool Json := ⟨.bool⟩

/-- The value, or `null`. -/
def ofOption {α : Type} (f : α → Json) : Option α → Json
  | none => .null
  | some a => f a

def ofStrings (ss : List String) : Json := .array (ss.map .string)

def asString? : Json → Option String
  | .string s => some s
  | _ => none

def asBool? : Json → Option Bool
  | .bool b => some b
  | _ => none

def asArray? : Json → Option (List Json)
  | .array js => some js
  | _ => none

def asObject? : Json → Option Members
  | .object ms => some ms
  | _ => none

def isNull : Json → Bool
  | .null => true
  | _ => false

/-- An unsigned 64-bit integer. -/
def asWord? : Json → Option Nat
  | .number (.int n) => if 0 ≤ n ∧ n < 0x10000000000000000 then some n.toNat else none
  | _ => none

/-- A signed 64-bit integer. -/
def asInt? : Json → Option Int
  | .number (.int n) => if -0x8000000000000000 ≤ n ∧ n < 0x8000000000000000 then some n else none
  | _ => none

/-- The member of an object with the name. -/
def get? (j : Json) (name : String) : Option Json :=
  match j with
  | .object ms => ms.lookup name
  | _ => none

namespace Members

/-- Sets the value of a name where it stands, or behind all others. -/
def set (ms : Members) (name : String) (value : Json) : Members :=
  if ms.any (·.1 == name) then ms.map fun m => if m.1 == name then (name, value) else m
  else ms ++ [(name, value)]

/-- Of members with one name, the first place and the last value. -/
def distinct (ms : Members) : Members :=
  ms.foldl (fun acc m => set acc m.1 m.2) []

end Members

mutual

/-- The value with every repeated member name resolved. -/
def normal : Json → Json
  | .array js => .array (normalItems js)
  | .object ms => .object (Members.distinct (normalMembers ms))
  | j => j

def normalItems : List Json → List Json
  | [] => []
  | j :: js => normal j :: normalItems js

def normalMembers : List (String × Json) → List (String × Json)
  | [] => []
  | (name, j) :: ms => (name, normal j) :: normalMembers ms

end

mutual

/-- How many objects and arrays are nested in a value. -/
def depth : Json → Nat
  | .array js => depthItems js + 1
  | .object ms => depthMembers ms + 1
  | _ => 0

def depthItems : List Json → Nat
  | [] => 0
  | j :: js => max (depth j) (depthItems js)

def depthMembers : List (String × Json) → Nat
  | [] => 0
  | (_, j) :: ms => max (depth j) (depthMembers ms)

end

end Json

end ContractModel
