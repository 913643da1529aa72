import ContractModel.Json.Schema

/-! # Interface entries

What the compiler says of the parts of a contract that can be called from outside.
-/

namespace ContractModel

/-- An argument or result of an interface entry. -/
structure InterfaceParameter where
  name : String
  typeString : String
  internalType : Option String
  components : Option (List InterfaceParameter)
  deriving Repr, BEq, Inhabited

namespace InterfaceParameter

/-- Reads a parameter from at most the given number of nested records. -/
def readWithin : Nat → Json.Written → Option InterfaceParameter
  | 0, _ => none
  | depth + 1, w => do
    let ms ← Json.Schema.record ["name", "type", "internalType", "components"] w
    let name ← Json.Schema.defaulted "name" Json.Written.asString? "" ms
    let typeString ← Json.Schema.required "type" Json.Written.asString? ms
    let internalType ← Json.Schema.optional "internalType" Json.Written.asString? ms
    let components ← Json.Schema.optional "components" (Json.Schema.list (readWithin depth)) ms
    return { name, typeString, internalType, components }

def read (w : Json.Written) : Option InterfaceParameter := readWithin w.depth w

mutual

def json : InterfaceParameter → Json
  | ⟨name, typeString, internalType, components⟩ =>
    .object ([("name", .string name), ("type", .string typeString)] ++
      Json.member? "internalType" .string internalType ++ jsonComponents components)

def jsonComponents : Option (List InterfaceParameter) → Json.Members
  | none => []
  | some ps => [("components", .array (jsonList ps))]

def jsonList : List InterfaceParameter → List Json
  | [] => []
  | p :: ps => json p :: jsonList ps

end

end InterfaceParameter

/-- A function, the constructor or another entry of the interface. -/
structure InterfaceEntry where
  kind : String
  name : Option String
  inputs : List InterfaceParameter
  outputs : List InterfaceParameter
  stateMutability : Option String
  payable : Option Bool
  deriving Repr, BEq

namespace InterfaceEntry

/-- The kind of a constructor's entry, and the name under which constructors are listed. -/
def constructorName : String := "constructor"

def functionKind : String := "function"

def isFunction (e : InterfaceEntry) : Bool := e.kind == functionKind
def isConstructor (e : InterfaceEntry) : Bool := e.kind == constructorName

def signatureName (e : InterfaceEntry) : String :=
  if e.isConstructor then constructorName else e.name.getD ""

/-- The name with the internal types of the inputs, where they are known. -/
def sourceSignature (e : InterfaceEntry) : String :=
  e.signatureName ++ "(" ++
    String.intercalate "," (e.inputs.map fun p => p.internalType.getD p.typeString) ++ ")"

def read (w : Json.Written) : Option InterfaceEntry := do
  let ms ← Json.Schema.record ["type", "name", "inputs", "outputs", "stateMutability", "payable"] w
  let parameters := Json.Schema.list InterfaceParameter.read
  return {
    kind := ← Json.Schema.required "type" Json.Written.asString? ms
    name := ← Json.Schema.optional "name" Json.Written.asString? ms
    inputs := ← Json.Schema.defaulted "inputs" parameters [] ms
    outputs := ← Json.Schema.defaulted "outputs" parameters [] ms
    stateMutability := ← Json.Schema.optional "stateMutability" Json.Written.asString? ms
    payable := ← Json.Schema.optional "payable" Json.Written.asBool? ms }

def json (e : InterfaceEntry) : Json :=
  .object ([("type", .string e.kind)] ++ Json.member? "name" .string e.name ++
    [("inputs", .array (e.inputs.map InterfaceParameter.json)),
      ("outputs", .array (e.outputs.map InterfaceParameter.json))] ++
    Json.member? "stateMutability" .string e.stateMutability ++
    Json.member? "payable" .bool e.payable)

end InterfaceEntry

end ContractModel
