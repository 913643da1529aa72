import ContractModel.Types.Dimensions
import ContractModel.Types.Resolution

/-! # Types of parameters in the tree

The type of a parameter is read from its declaration. A struct has the types of its members as
components, unless it is met again inside itself.
-/

namespace ContractModel.ParameterType

/-- What a declared base is: its definition, and the name the source gives it. -/
structure Declared where
  definition : Node
  name : Option String

/-- The declaration that a type name refers to, if it refers to one. -/
def declaredOf (lookup : Int → Except Error Node) (base : Node) : Except Error (Option Declared) :=
  if base.is "UserDefinedTypeName" then
    match base.referencedDeclaration? with
    | none => .error (.inconsistency (.noDeclaration base.id))
    | some reference => do
      let definition ← lookup reference
      return some ⟨definition, (definition.string? "canonicalName").or definition.name?⟩
  else .ok none

/-- How the source writes the base. -/
def writtenName (base : Node) : Option String :=
  ((base.get? "pathNode").bind fun path => (path.get? "name").bind Json.asString?).or base.name?

/-- A library calls its types by their own names: declared types, and mappings to declared types. -/
def librarySignatureOf (base : Node) (typeString : String) (declared : Option Declared) :
    Option String :=
  match declared with
  | some d => d.name
  | none =>
    if base.is "Mapping" && ((base.child? "valueType").map (·.is "UserDefinedTypeName")).getD false
    then some typeString else none

/-- The type name that a parameter is declared with. -/
def typeNameOf (parameter : Node) : Except Error Node :=
  match parameter.child? "typeName" with
  | none => .error (.inconsistency (.noParameterType parameter.id))
  | some n => .ok n

def typeStringOf (base : Node) : Except Error String :=
  match base.typeString? with
  | none => .error (.inconsistency (.noTypeString base.id))
  | some s => .ok s

/-- The types of a struct's members, none for a struct that encloses the parameter. -/
def membersOf (member : List Int → Node → Except Error ParameterType) (enclosing : List Int)
    (declared : Option Declared) : Except Error (List ParameterType) :=
  match declared with
  | none => .ok []
  | some d =>
    if d.definition.is "StructDefinition" && !enclosing.contains d.definition.id then
      (d.definition.children "members").mapM (member (d.definition.id :: enclosing))
    else .ok []

/-- The type of a parameter, given how the members of the structs inside it are resolved. -/
def ofParameterWith (ts : Trees) (root : String) (inLibrary : Bool)
    (member : List Int → Node → Except Error ParameterType) (enclosing : List Int)
    (parameter : Node) : Except Error ParameterType := do
  let typeName ← typeNameOf parameter
  let (dimensions, base) ← Dimensions.ofNode typeName
  let typeString ← typeStringOf base
  let declared ← declaredOf (ts.definition root) base
  let declares (kind : String) : Bool := (declared.map (·.definition.is kind)).getD false
  let isFunction := base.is "FunctionTypeName"
  let sourceType ← SourceType.ofTypeName ts root base
  let components ← membersOf member enclosing declared
  let location := (parameter.string? "storageLocation").getD "default"
  let declaration := (writtenName base).map fun name =>
    name ++ dimensionsText dimensions ++ (if location == "default" then "" else " " ++ location)
  return {
    base := typeString
    sourceType := sourceType
    components := components
    dimensions := dimensions
    isStorage := location == "storage"
    isTuple := declares "StructDefinition"
    isAddressAlias := declares "ContractDefinition" ||
      (!isFunction && base.string? "stateMutability" == some "payable")
    isUint8Alias := declares "EnumDefinition"
    isMapping := base.is "Mapping"
    isFunction := isFunction
    isEnum := declares "EnumDefinition"
    isContract := declares "ContractDefinition"
    isCalldata := location == "calldata"
    userDefinedName := declared.bind Declared.name
    declaration := declaration
    librarySignature := if inLibrary then librarySignatureOf base typeString declared else none }

/-- Enters at most the given number of structs, one inside the other. -/
def ofParameterWithin (ts : Trees) (root : String) (inLibrary : Bool) :
    Nat → List Int → Node → Except Error ParameterType
  | 0 => fun _ _ => .error .endlessType
  | steps + 1 => ofParameterWith ts root inLibrary (ofParameterWithin ts root inLibrary steps)

/-- The type of a parameter of a function in a library or in another contract. -/
def ofParameter (ts : Trees) (root : String) (inLibrary : Bool) (parameter : Node) :
    Except Error ParameterType :=
  ofParameterWithin ts root inLibrary (SourceType.chainBound ts root) [] parameter

end ContractModel.ParameterType
