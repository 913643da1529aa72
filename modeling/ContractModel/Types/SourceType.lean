import ContractModel.Json.Basic

/-! # Source types

The types that a source declares or names, expanded down to primitive ones. A struct that is met
again inside itself has no members there.
-/

namespace ContractModel

/-- What a declared type is known by. -/
structure TypeIdentity where
  name : String
  typeString : String
  canonicalName : String
  contract : Option String
  reference : Int
  deriving DecidableEq, Repr

inductive SourceType where
  | primitive (name typeString : String)
  | mapping (typeString : String) (domain codomain : SourceType) (contract : Option String)
      (reference : Int)
  | array (typeString : String) (element : SourceType) (length : Option Nat)
      (contract : Option String) (reference : Int)
  | enumeration (identity : TypeIdentity) (members : List String)
  | record (identity : TypeIdentity) (members : List (String × SourceType))
  | value (identity : TypeIdentity) (underlying : SourceType)
  deriving Repr, BEq, Inhabited

namespace SourceType

def ofName (name : String) : SourceType := .primitive name name

def name : SourceType → String
  | primitive n _ => n
  | mapping _ d c _ _ => "mapping(" ++ d.name ++ " => " ++ c.name ++ ")"
  | array s _ _ _ _ => s
  | enumeration i _ | record i _ | value i _ => i.name

def typeString : SourceType → String
  | primitive _ s | mapping s _ _ _ _ | array s _ _ _ _ => s
  | enumeration i _ | record i _ | value i _ => i.typeString

def identity? : SourceType → Option TypeIdentity
  | enumeration i _ | record i _ | value i _ => some i
  | _ => none

/-- Declared types are compared by canonical name; if either is not declared, by type string. -/
def agrees (s t : SourceType) : Bool :=
  match s.identity?, t.identity? with
  | some i, some j => i.canonicalName == j.canonicalName
  | _, _ => s.typeString == t.typeString

@[simp] theorem agrees_refl (s : SourceType) : s.agrees s = true := by
  unfold agrees
  cases s.identity? <;> simp

mutual

def json : SourceType → Json
  | primitive name _ => .object [("name", name), ("type", "Primitive"), ("canonicalName", .null),
      ("contractName", .null), ("members", .null)]
  | mapping s d c contract reference => .object [
      ("name", name (mapping s d c contract reference)), ("type", "Mapping"),
      ("canonicalName", .null), ("contractName", .ofOption .string contract), ("members", .null),
      ("domain", json d), ("codomain", json c)]
  | array s e length contract _ => .object [("name", s), ("type", "Array"),
      ("canonicalName", .null), ("contractName", .ofOption .string contract), ("members", .null),
      ("elementType", json e), ("length", .ofOption .ofNat length)]
  | enumeration i members => .object [("type", "Enum"), ("name", i.name),
      ("canonicalName", i.canonicalName),
      ("members", .array (members.map fun m => .object [("name", .string m), ("type", .null)])),
      ("contractName", .ofOption .string i.contract)]
  | record i members => .object [("type", "Struct"), ("name", i.name),
      ("canonicalName", i.canonicalName), ("members", .array (jsonMembers members)),
      ("contractName", .ofOption .string i.contract)]
  | value i u => .object [("type", "UserDefinedValueType"), ("name", i.name),
      ("canonicalName", i.canonicalName), ("members", .null),
      ("contractName", .ofOption .string i.contract), ("underlying", json u)]

def jsonMembers : List (String × SourceType) → List Json
  | [] => []
  | (name, t) :: ms => .object [("name", name), ("type", json t)] :: jsonMembers ms

end

end SourceType

end ContractModel
