import ContractModel.Interface.Entry
import ContractModel.Types.Dimensions

/-! # Types of parameters in the interface

The compiler names a parameter's canonical type and, if it is known, the internal type that the
source shows. The internal type is looked up among the declared types.
-/

namespace ContractModel.ParameterType

/-- The declared type with the type string, or a primitive type of that name. -/
def declaredType (types : List SourceType) (typeString : String) : SourceType :=
  (types.find? fun t => t.typeString == typeString).getD (.ofName typeString)

/-- The type with a base, dimensions and, for a tuple, components. -/
def ofBase (components : List ParameterType) (dimensions : List Int) (base : String) :
    ParameterType :=
  { elementary base with
    declaration := none
    components := components
    dimensions := dimensions
    isTuple := !components.isEmpty }

/-- The type with the base that the source shows, in the place of the canonical one. -/
def shownAs (types : List SourceType) (t : ParameterType) (base : String) : ParameterType :=
  { t with
    sourceType := declaredType types base
    isAddressAlias := t.base == "address" && base != t.base
    isUint8Alias := t.base == "uint8" && base != t.base
    base := base }

/-- Adds what the internal type says to a type that has the canonical base. -/
def withInternalType (types : List SourceType) (t : ParameterType) (abiType internalType : String) :
    Except Error ParameterType := do
  let (dimensions, base) ← Dimensions.ofTypeString internalType
  if dimensions = t.dimensions then return shownAs types t base
  else throw (.inconsistency (.arrayDimensions abiType internalType))

mutual

/-- The type of a parameter of an interface entry. -/
def ofInterface (types : List SourceType) : InterfaceParameter → Except Error ParameterType
  | ⟨_, typeString, internalType, components⟩ => do
    let components ← ofInterfaceComponents types components
    let (dimensions, base) ← Dimensions.ofTypeString typeString
    let t := ofBase components dimensions base
    match internalType with
    | none => return t
    | some internalType => withInternalType types t typeString internalType

def ofInterfaceComponents (types : List SourceType) :
    Option (List InterfaceParameter) → Except Error (List ParameterType)
  | none => .ok []
  | some ps => ofInterfaceList types ps

def ofInterfaceList (types : List SourceType) :
    List InterfaceParameter → Except Error (List ParameterType)
  | [] => .ok []
  | p :: ps => do
    let t ← ofInterface types p
    let ts ← ofInterfaceList types ps
    return t :: ts

end

end ContractModel.ParameterType
