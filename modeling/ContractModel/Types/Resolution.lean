import ContractModel.Syntax.Index

/-! # Resolving declared types

The type that a tree node declares or names. A type name is first read from its node, which settles
everything but the declarations it refers to; these are then followed. A struct cuts the recursion
through itself, so only a value type defined through itself has no end.
-/

namespace ContractModel

/-- A type as its node names it. What is wrong with a node shows when the name is resolved. -/
inductive TypeName where
  | primitive (name typeString : String)
  | declared (reference : Int)
  | mapping (typeString : String) (domain codomain : TypeName) (contract : Option String)
      (reference : Int)
  | array (typeString : String) (element : TypeName) (length : Option Nat)
      (contract : Option String) (reference : Int)
  | malformed (fault : Inconsistency)
  deriving Repr

namespace TypeName

/-- The length of an array type, if it is written as a number. -/
def arrayLength (n : Node) : Option Nat := do
  let value ← (← (← n.get? "length").get? "value").asString?
  (Text.readWord value).toOption

/-- Continues with the type string of a node. -/
def withTypeString (n : Node) (k : String → TypeName) : TypeName :=
  match n.typeString? with
  | some s => k s
  | none => .malformed (.noTypeString n.id)

def ofNode (n : Node) : TypeName :=
  if n.is "ElementaryTypeName" then withTypeString n fun s => .primitive n.name s
  else if n.is "FunctionTypeName" then withTypeString n fun s => .primitive s s
  else if n.is "UserDefinedTypeName" then
    match n.referencedDeclaration? with
    | some id => .declared id
    | none => .malformed (.noDeclaration n.id)
  else if n.is "Mapping" then
    match _hk : n.child? "keyType" with
    | none => .malformed (.noKeyType n.id)
    | some key =>
      match _hv : n.child? "valueType" with
      | none => .malformed (.noValueType n.id)
      | some value =>
        withTypeString n fun s => .mapping s (ofNode key) (ofNode value) n.contract n.id
  else if n.is "ArrayTypeName" then
    match _hb : n.child? "baseType" with
    | none => .malformed (.noElementType n.id)
    | some element =>
      withTypeString n fun s => .array s (ofNode element) (arrayLength n) n.contract n.id
  else .malformed (.notTypeName n.id n.kind)
termination_by sizeOf n.fields
decreasing_by all_goals exact Node.sizeOf_child (by assumption)

/-- The type of a name, given the types of the declarations it refers to. -/
def resolve (follow : Int → Except Error SourceType) : TypeName → Except Error SourceType
  | primitive name s => .ok (.primitive name s)
  | declared reference => follow reference
  | mapping s d c contract reference => do
    return .mapping s (← resolve follow d) (← resolve follow c) contract reference
  | array s e length contract reference => do
    return .array s (← resolve follow e) length contract reference
  | malformed fault => .error (.inconsistency fault)

end TypeName

namespace SourceType

def canonicalName (n : Node) : Except Error String :=
  match n.string? "canonicalName" with
  | some s => .ok s
  | none => .error (.inconsistency (.noCanonicalName n.id))

def identityOf (n : Node) (typeString canonicalName : String) : TypeIdentity :=
  ⟨n.name, typeString, canonicalName, n.contract, n.id⟩

/-- A member of a struct. -/
def memberOf (resolve : Node → Except Error SourceType) (m : Node) :
    Except Error (String × SourceType) :=
  match m.child? "typeName" with
  | none => .error (.inconsistency (.memberWithoutTypeName m.id))
  | some typeName => do return (m.name, ← resolve typeName)

/-- The type that a node defines, given how the type names inside it are resolved below the
enclosing structs. -/
def define (resolve : List Int → Node → Except Error SourceType) (enclosing : List Int)
    (n : Node) : Except Error SourceType :=
  if n.is "EnumDefinition" then do
    let canonical ← canonicalName n
    let typeString := n.typeString?.getD ("enum " ++ canonical)
    return .enumeration (identityOf n typeString canonical)
      ((n.children "members").filterMap Node.name?)
  else if n.is "StructDefinition" then do
    let canonical ← canonicalName n
    let members ←
      if enclosing.contains n.id then pure []
      else (n.children "members").mapM (memberOf (resolve (n.id :: enclosing)))
    return .record (identityOf n ("struct " ++ canonical) canonical) members
  else if n.is "UserDefinedValueTypeDefinition" then do
    let canonical ← canonicalName n
    match n.child? "underlyingType" with
    | none => .error (.inconsistency (.noUnderlyingType n.id))
    | some underlying =>
      return .value (identityOf n canonical canonical) (← resolve enclosing underlying)
  else if n.is "ContractDefinition" then .ok (.ofName "address")
  else .error (.inconsistency (.notTypeDefinition n.id n.kind))

/-- Follows at most the given number of declarations, one inside the other. -/
def ofDefinitionWithin (lookup : Int → Except Error Node) :
    Nat → List Int → Node → Except Error SourceType
  | 0 => fun _ _ => .error .endlessType
  | steps + 1 =>
    define fun enclosing typeName =>
      (TypeName.ofNode typeName).resolve fun reference => do
        ofDefinitionWithin lookup steps enclosing (← lookup reference)

/-- More declarations than a chain without an endless value type can follow: between two new structs
each value type comes once. -/
def chainBound (ts : Trees) (root : String) : Nat :=
  let count := ts.nodeCount root
  (count + 2) * (count + 2)

/-- The type that a node defines. -/
def ofDefinition (ts : Trees) (root : String) (n : Node) : Except Error SourceType :=
  ofDefinitionWithin (ts.definition root) (chainBound ts root) [] n

/-- The type that a node names. -/
def ofTypeName (ts : Trees) (root : String) (n : Node) : Except Error SourceType :=
  (TypeName.ofNode n).resolve fun reference => do
    ofDefinition ts root (← ts.definition root reference)

end SourceType

end ContractModel
