import ContractModel.Types.SourceType
import ContractModel.Text.Number

/-! # Parameter types

The type of a function's argument or result: a base, array dimensions from the outermost, and what
is known of the place where the value is kept. Its canonical signature is the one selectors are
computed from; its source signature is the one the source shows.
-/

namespace ContractModel

structure ParameterType where
  base : String
  /-- The base as a source type. -/
  sourceType : SourceType
  components : List ParameterType
  /-- The lengths of the dimensions, `-1` for a dynamic one. -/
  dimensions : List Int
  isStorage : Bool
  isTuple : Bool
  isAddressAlias : Bool
  isUint8Alias : Bool
  isMapping : Bool
  isFunction : Bool
  isEnum : Bool
  isContract : Bool
  isCalldata : Bool
  userDefinedName : Option String
  /-- How a variable of the type is declared. -/
  declaration : Option String
  /-- The signature that the functions of a library use. -/
  librarySignature : Option String
  deriving Repr, Inhabited

namespace ParameterType

def elementary (name : String) : ParameterType where
  base := name
  sourceType := .ofName name
  components := []
  dimensions := []
  isStorage := false
  isTuple := false
  isAddressAlias := false
  isUint8Alias := false
  isMapping := false
  isFunction := false
  isEnum := false
  isContract := false
  isCalldata := false
  userDefinedName := none
  declaration := some name
  librarySignature := none

def dimensionText (d : Int) : String :=
  if d = -1 then "[]" else "[" ++ Text.signedDecimal d ++ "]"

/-- The dimensions as they stand behind the base, the innermost first. -/
def dimensionsText (ds : List Int) : String :=
  String.join (ds.reverse.map dimensionText)

/-- What follows the base. -/
def ending (t : ParameterType) : String :=
  dimensionsText t.dimensions ++ (if t.isStorage then " storage" else "")

mutual

/-- The canonical signature. Of several readings of the base the first one counts: the library's
name, an enum's number, the components, an address. -/
def signature : ParameterType → String
  | ⟨base, _, components, dimensions, isStorage, isTuple, isAddressAlias, isUint8Alias, _, _, _, _,
      _, _, _, librarySignature⟩ =>
    let front :=
      match librarySignature with
      | some s => s
      | none =>
        if isUint8Alias then "uint8"
        else if isTuple then "(" ++ String.intercalate "," (signatures components) ++ ")"
        else if isAddressAlias then "address"
        else base
    front ++ (dimensionsText dimensions ++ (if isStorage then " storage" else ""))

def signatures : List ParameterType → List String
  | [] => []
  | t :: ts => signature t :: signatures ts

end

def sourceSignature (t : ParameterType) : String := t.base ++ t.ending

/-- Whether a value consists of an offset and a length: it is in calldata and has a length known at
run time only. -/
def isDecomposed (t : ParameterType) : Bool :=
  t.isCalldata && (t.dimensions.head? == some (-1) || t.base == "string" || t.base == "bytes")

mutual

def json : ParameterType → Json
  | ⟨base, sourceType, components, dimensions, isStorage, isTuple, isAddressAlias, isUint8Alias, _,
      _, _, _, _, _, _, _⟩ =>
    .object [("baseType", base), ("typeDescription", sourceType.json),
      ("components", .array (jsonList components)),
      ("arrayDims", .array (dimensions.map .ofInt)), ("isStorage", isStorage),
      ("isTuple", isTuple), ("isAddressAlias", isAddressAlias), ("isUint8Alias", isUint8Alias)]

def jsonList : List ParameterType → List Json
  | [] => []
  | t :: ts => json t :: jsonList ts

end

end ParameterType

end ContractModel
