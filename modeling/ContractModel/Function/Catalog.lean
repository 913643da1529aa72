import ContractModel.Compilation.Output
import ContractModel.Function.Basic
import ContractModel.Function.Selector
import ContractModel.Syntax.Inheritance
import ContractModel.Types.InterfaceType
import ContractModel.Types.Parameter

/-! # The catalog of a contract's functions

The functions that a contract has, its bases' included: those defined in the tree, and the getters
of public state variables. Of functions with one selector the first one is kept. In the end every
function of the interface must have been found.
-/

namespace ContractModel.Catalog

/-- What the compiler says of a contract. -/
structure Subject where
  trees : Trees
  root : String
  lang : Language
  contract : CompiledContract
  types : List SourceType

def Subject.interfaceSignatures (s : Subject) : List String := s.contract.sourceSignatures

/-- The selector that the tree or else the signature gives; the compiler has to agree. -/
def selectorOf (s : Subject) (n : Option Node) (name : String) (arguments : List ParameterType) :
    Except Error String :=
  match n.bind fun n => n.string? "functionSelector" with
  | some selector => .ok selector
  | none =>
    let signature := ContractFunction.signatureWith ParameterType.signature name arguments
    match s.contract.methodIdentifiers.get? signature with
    | none => .error (.inconsistency (.noMethodIdentifier name signature))
    | some expected =>
      let computed := selector signature
      if s.lang.normalizeSelector computed = expected then .ok computed
      else .error (.inconsistency (.otherSelector computed name signature expected))

/-- Whether a function belongs to the interface; arguments and results in storage keep it out. -/
def isInInterface (s : Subject) (isConstructor : Bool) (name : String)
    (arguments results : List ParameterType) : Bool :=
  let listed := isConstructor ||
    s.interfaceSignatures.contains
      (ContractFunction.signatureWith ParameterType.sourceSignature name arguments) ||
    s.interfaceSignatures.contains
      (ContractFunction.signatureWith ParameterType.signature name arguments)
  listed && !(arguments ++ results).any fun t => t.isStorage

/-- The parameters that a definition lists in a field. -/
def parameterNodes (definition : Node) (key : String) : List Node :=
  ((definition.child? key).map fun list => list.children "parameters").getD []

def isFunctionDefinition (contract : String) (n : Node) : Bool :=
  n.is "FunctionDefinition" && n.contract == some contract &&
    (match n.string? "kind" with
      | some kind => kind == "function" || kind == InterfaceEntry.constructorName
      | none => n.bool? "isConstructor" == some false && n.name != "") &&
    ((n.string? "visibility").bind Visibility.ofText?).isSome

def isPublicVariable (contract : String) (n : Node) : Bool :=
  n.is "VariableDeclaration" && n.string? "visibility" == some "public" &&
    n.bool? "stateVariable" == some true && n.contract == some contract

/-- Where the body of a function stands. -/
def bodyLocation (file : String) (definition : Node) : Option FunctionLocation := do
  let body ← definition.child? "body"
  if !body.is "Block" then none
  return ⟨file, ← body.src?⟩

/-- The selectors found so far. -/
abbrev Selectors := List String

/-- Makes a function unless its selector was found before, and adds the selector to those found. -/
def unlessFound (found : Selectors) (selector : Option String)
    (make : Except Error (Option ContractFunction)) :
    Except Error (Option ContractFunction × Selectors) :=
  if selector.any found.contains then .ok (none, found)
  else do
    let function ← make
    return (function, found ++ selector.toList)

def visibilityOf (definition : Node) : Except Error Visibility :=
  let text := (definition.string? "visibility").getD ""
  match Visibility.ofText? text with
  | some v => .ok v
  | none => .error (.inconsistency (.visibility text))

/-- The types of the parameters that a definition lists in a field. -/
def parameterTypes (s : Subject) (base : BaseContract) (definition : Node) (key : String) :
    Except Error (List ParameterType) :=
  (parameterNodes definition key).mapM (ParameterType.ofParameter s.trees s.root base.isLibrary)

/-- The selector of a definition. Constructors, which have no name, and functions that are called
from inside only have none. -/
def definedSelector (s : Subject) (definition : Node) (visibility : Visibility)
    (arguments : List ParameterType) : Except Error (Option String) :=
  if !definition.name.isEmpty && visibility.isExternal then
    some <$> selectorOf s (some definition) definition.name arguments
  else .ok none

/-- The function that a definition describes. -/
def described (s : Subject) (base : BaseContract) (definition : Node) (visibility : Visibility)
    (arguments results : List ParameterType) (selector : String) : ContractFunction :=
  let isConstructor := definition.name.isEmpty
  let name := if isConstructor then InterfaceEntry.constructorName else definition.name
  let mutability := (definition.string? "stateMutability").getD defaultMutability
  let location := bodyLocation base.file definition
  { name := name
    arguments := arguments
    parameterNames := (parameterNodes definition "parameters").map Node.name
    results := results
    selector := selector
    notPayable := isNotPayable mutability
    isInInterface := isInInterface s isConstructor name arguments results
    fromLibrary := base.isLibrary
    isConstructor := isConstructor
    mutability := mutability
    visibility := visibility
    implemented := (definition.bool? "implemented").getD location.isSome
    overrides := (definition.get? "overrides").isSome
    nodeId := some definition.id
    location := location }

/-- The function that a definition in the tree gives, and its selector among those found. There is
none if the selector was found before, or for a constructor with arguments in storage. -/
def ofDefinition (s : Subject) (base : BaseContract) (found : Selectors) (definition : Node) :
    Except Error (Option ContractFunction × Selectors) := do
  let visibility ← visibilityOf definition
  let arguments ← parameterTypes s base definition "parameters"
  let selector ← definedSelector s definition visibility arguments
  unlessFound found selector do
    let results ← parameterTypes s base definition "returnParameters"
    let function := described s base definition visibility arguments results (selector.getD "0")
    return if function.isConstructor && !function.isInInterface then none else some function

/-- The interface entry of a getter. -/
def getterEntry (s : Subject) (name : String) : Except Error InterfaceEntry :=
  match s.contract.interface.filter fun e => e.isFunction && e.name == some name with
  | [e] => .ok e
  | [] => .error (.inconsistency (.noGetter name))
  | _ => .error (.inconsistency (.severalGetters name))

/-- The getter that an interface entry describes. -/
def describedGetter (s : Subject) (base : BaseContract) (declaration : Node)
    (entry : InterfaceEntry) (arguments results : List ParameterType) (selector : String) :
    ContractFunction where
  name := declaration.name
  arguments := arguments
  parameterNames := []
  results := results
  selector := selector
  notPayable := (entry.payable.map (!·)).getD false ||
    (entry.stateMutability.map isNotPayable).getD false
  isInInterface := isInInterface s false declaration.name arguments results
  fromLibrary := base.isLibrary
  isConstructor := false
  mutability := entry.stateMutability.getD defaultMutability
  visibility := .external
  implemented := true
  overrides := (declaration.get? "overrides").isSome
  nodeId := none
  location := none

/-- The getter of a public state variable, and its selector among those found. There is none if the
selector was found before. -/
def ofVariable (s : Subject) (base : BaseContract) (found : Selectors) (declaration : Node) :
    Except Error (Option ContractFunction × Selectors) := do
  let entry ← getterEntry s declaration.name
  let arguments ← entry.inputs.mapM (ParameterType.ofInterface s.types)
  let selector ← selectorOf s (some declaration) declaration.name arguments
  unlessFound found (some selector) do
    let results ← entry.outputs.mapM (ParameterType.ofInterface s.types)
    return some (describedGetter s base declaration entry arguments results selector)

/-- The function that an interface entry describes by itself. -/
def ofEntry (s : Subject) (entry : InterfaceEntry) : Except Error ContractFunction := do
  let name := entry.signatureName
  let arguments ← entry.inputs.mapM (ParameterType.ofInterface s.types)
  let selector ← selectorOf s none name arguments
  let results ← entry.outputs.mapM (ParameterType.ofInterface s.types)
  let mutability := entry.stateMutability.getD defaultMutability
  return {
    name := name
    arguments := arguments
    parameterNames := []
    results := results
    selector := selector
    notPayable := isNotPayable mutability
    isInInterface := true
    fromLibrary := false
    isConstructor := false
    mutability := mutability
    visibility := .external
    implemented := true
    overrides := false
    nodeId := none
    location := none }

/-- Collects what the nodes give, as long as `keep` holds of it. -/
def gather (step : Selectors → Node → Except Error (Option ContractFunction × Selectors))
    (keep : ContractFunction → Bool) :
    Selectors → List Node → Except Error (List ContractFunction × Selectors)
  | found, [] => .ok ([], found)
  | found, n :: ns => do
    let (function, found) ← step found n
    let (functions, found) ← gather step keep found ns
    return ((function.filter keep).toList ++ functions, found)

/-- The functions of one base; private ones count for a base of the contract's own name only. -/
def ofBase (s : Subject) (contract : String) (found : Selectors) (base : BaseContract) :
    Except Error (List ContractFunction × Selectors) := do
  let nodes := s.trees.nodesOf s.root base.file
  let (functions, found) ← gather (ofDefinition s base)
    (fun f => f.visibility ≠ .priv || base.name == contract) found
    (nodes.filter (isFunctionDefinition base.name))
  let (getters, found) ← gather (ofVariable s base) (fun _ => true) found
    (nodes.filter (isPublicVariable base.name))
  return (functions ++ getters, found)

def ofBases (s : Subject) (contract : String) :
    Selectors → List BaseContract → Except Error (List ContractFunction)
  | _, [] => .ok []
  | found, base :: bases => do
    let (functions, found) ← ofBase s contract found base
    let more ← ofBases s contract found bases
    return functions ++ more

/-- The functions before the interface is compared. -/
def collectAll (s : Subject) (compiled contract : String) : Query (List ContractFunction) :=
  match s.lang with
  | .solidity => do
    let bases ← Query.baseContracts s.root compiled contract
    Query.ofExcept (ofBases s contract [] bases)
  | .vyper =>
    Query.ofExcept ((s.contract.interface.filter InterfaceEntry.isFunction).mapM (ofEntry s))

/-- Refuses a collection that has not as many interface functions as the interface itself. -/
def checkComplete (s : Subject) (functions : List ContractFunction) : Except Error Unit :=
  let collected := (functions.filter fun f =>
    f.isInInterface && f.name != InterfaceEntry.constructorName).map
      ContractFunction.sourceSignature
  let expected := s.interfaceSignatures.filter fun signature =>
    !Text.hasPrefix InterfaceEntry.constructorName signature
  if collected.length = expected.length then .ok ()
  else .error (.inconsistency (.missingFunctions collected s.interfaceSignatures))

/-- The functions of a contract. -/
def collect (s : Subject) (compiled contract : String) : Query (List ContractFunction) := do
  let functions ← collectAll s compiled contract
  Query.ofExcept (checkComplete s functions)
  return functions

end ContractModel.Catalog
