import ContractModel.Text.Number
import ContractModel.Text.Quoted
import ContractModel.Text.Words

/-! # Failures of a build

Each failure is a value that says what went wrong; `message` puts it into words. Faults of the
user's input are told apart from disagreements between the model and the compiler's answers, and
both from a syntax tree with a reference that leads nowhere, which no part of a build can recover
from.
-/

namespace ContractModel

/-- Why an operation on the file tree failed. -/
inductive FileFault where
  | missing
  | notDirectory
  | isDirectory
  | alreadyExists
  | notRegular
  | notText
  | nameTooLong
  | nulByte
  deriving DecidableEq, Repr

def FileFault.message : FileFault → String
  | missing => "No such file or directory (os error 2)"
  | notDirectory => "Not a directory (os error 20)"
  | isDirectory => "Is a directory (os error 21)"
  | alreadyExists => "File exists (os error 17)"
  | notRegular => "the source path is neither a regular file nor a symlink to a regular file"
  | notText => "stream did not contain valid UTF-8"
  | nameTooLong => "File name too long (os error 36)"
  | nulByte => "file name contained an unexpected NUL byte"

/-- What the user has to change. -/
inductive InputFault where
  | linkForm (text : String)
  | prototypeForm (text : String)
  | noAddress (contract file : String) (available : List String)
  | addressValue (value contract : String)
  | noVariable (name contract : String)
  | noVariableInAssembly (name contract : String)
  | nonExternalMethod (signature visibility : String)
  | unknownMethod (method : String) (suggestions : List String)
  | noLinkContract (contract : String)
  | linkSlot (slot directive : String)
  | structLinkSlot (slot directive : String)
  | rejectedSource (compiler text : String)
  | severeWarning (text : String)
  | sourceCopy (path directory : String) (fault : FileFault)
  | noDeployedBytecode (contract : String)
  | findersFile (path : String) (fault : FileFault)
  deriving DecidableEq, Repr

/-- Alternatives as they are read aloud. -/
def joinAlternatives : List String → String
  | [] => ""
  | [a] => a
  | [a, b] => a ++ " or " ++ b
  | as => String.intercalate ", " as.dropLast ++ ", or " ++ as.getLast?.getD ""

def InputFault.message : InputFault → String
  | linkForm text => "Link " ++ text ++ " should be of the form Contract:reference=destination"
  | prototypeForm text =>
    "Prototype " ++ text ++ " should be of the form signature=Contract"
  | noAddress contract file available =>
    "Failed to find a contract named " ++ contract ++ " in file " ++ file ++
      ". Please make sure there is a file named like the contract, or a file containing a" ++
      " contract with this name. Available contracts: " ++ String.intercalate "," available
  | addressValue value contract => "Invalid address " ++ value ++ " of contract " ++ contract
  | noVariable name contract =>
    "Link to a variable " ++ name ++ " that doesn't exist in the contract " ++ contract ++
      ", neither as a state variable nor as an immutable."
  | noVariableInAssembly name contract =>
    "Link to a var that doesnt exist on the contract. Failed to resolve slot for " ++ name ++
      " in " ++ contract ++ ", valid candidates: \x7b\x7d"
  | nonExternalMethod signature visibility =>
    "Method " ++ signature ++ " is " ++ visibility ++
      ". Please change it to external or public"
  | unknownMethod method [] => "Method " ++ method ++ " was not found"
  | unknownMethod method suggestions =>
    "Method " ++ method ++ " was not found. Maybe you meant " ++
      joinAlternatives suggestions ++ "?"
  | noLinkContract contract => "No contract to link to with the name " ++ contract
  | linkSlot slot directive => "Invalid slot " ++ slot ++ " in link " ++ directive
  | structLinkSlot slot directive => "Invalid slot " ++ slot ++ " in struct link " ++ directive
  | rejectedSource compiler text => compiler ++ " had an error:\n" ++ text
  | severeWarning text =>
    "Severe compiler warning:\n" ++ text ++
      "\nPlease fix this warning before running the Certora Prover"
  | sourceCopy path directory fault =>
    "Failed to copy the source " ++ path ++ " to " ++ Text.quotedString directory ++ ": " ++
      fault.message
  | noDeployedBytecode contract =>
    "Contract " ++ contract ++
      " has no deployed bytecode. It may be an abstract contract or an interface."
  | findersFile path fault =>
    "Function finders file " ++ Text.quotedString path ++ " reading error: " ++ fault.message

/-- How the model and the compiler's answers disagree. -/
inductive Inconsistency where
  | noTree (root compiled : String)
  | noContractDefinition (contract compiled root : String)
  | noBaseList (id : Int)
  | noBaseReference (id : Int)
  | memberWithoutTypeName (id : Int)
  | noUnderlyingType (id : Int)
  | notTypeDefinition (id : Int) (kind : String)
  | noTypeString (id : Int)
  | noDeclaration (id : Int)
  | noKeyType (id : Int)
  | noValueType (id : Int)
  | noElementType (id : Int)
  | notTypeName (id : Int) (kind : String)
  | noCanonicalName (id : Int)
  | noArrayBase (id : Int)
  | noParameterType (id : Int)
  | arrayDimension (typeString : String) (fault : Text.IntegerFault)
  | arrayDimensions (abiType internalType : String)
  | visibility (text : String)
  | missingFunctions (collected expected : List String)
  | noMethodIdentifier (name signature : String)
  | otherSelector (selector name signature expected : String)
  | noGetter (name : String)
  | severalGetters (name : String)
  | referenceOutOfBounds (start length : Nat)
  | layoutSlot (slot name contract : String)
  | severalLayoutSlots (name contract : String) (slots : List String)
  | assemblySlot (candidate name contract : String)
  | severalAssemblySlots (name contract : String) (candidates : List String)
  | libraryCount (address unit : String) (count : Nat)
  | primaryCount (contract unit : String) (count : Nat)
  | severalImmutables (name : String) (holders : List Nat)
  | severalUnits (contract : String) (keys : List String)
  | noSourceId (file : String)
  | noContractOutput (name file : String)
  | noImmutable (id contract : String)
  deriving DecidableEq, Repr

def Inconsistency.message : Inconsistency → String
  | noTree root compiled =>
    "Invalid AST format for original file " ++ root ++ ": no AST for " ++ compiled
  | noContractDefinition contract compiled root =>
    "No definition of contract " ++ contract ++ " in " ++ compiled ++ " (compiled for " ++
      root ++ ")"
  | noBaseList id =>
    "Contract definition " ++ Text.signedDecimal id ++ " has no `baseContracts`"
  | noBaseReference id =>
    "Inheritance specifier without a base reference in " ++ Text.signedDecimal id
  | memberWithoutTypeName id => "Struct member " ++ Text.signedDecimal id ++ " has no type name"
  | noUnderlyingType id => "Value type " ++ Text.signedDecimal id ++ " has no underlying type"
  | notTypeDefinition id kind =>
    "Unexpected AST type definition node " ++ Text.signedDecimal id ++ " of type `" ++ kind ++ "`"
  | noTypeString id => "Type name node " ++ Text.signedDecimal id ++ " has no type string"
  | noDeclaration id => "Type name node " ++ Text.signedDecimal id ++ " has no declaration"
  | noKeyType id => "Mapping node " ++ Text.signedDecimal id ++ " has no key type"
  | noValueType id => "Mapping node " ++ Text.signedDecimal id ++ " has no value type"
  | noElementType id => "Array node " ++ Text.signedDecimal id ++ " has no base type"
  | notTypeName id kind =>
    "Unexpected AST type name node " ++ Text.signedDecimal id ++ " of type `" ++ kind ++ "`"
  | noCanonicalName id =>
    "Type definition " ++ Text.signedDecimal id ++ " has no canonical name"
  | noArrayBase id =>
    "Expected an array type with a base type, but got node " ++ Text.signedDecimal id
  | noParameterType id =>
    "Expected a parameter with a type name, but got node " ++ Text.signedDecimal id
  | arrayDimension typeString fault =>
    "Invalid array dimension in " ++ typeString ++ ": " ++ fault.message
  | arrayDimensions abiType internalType =>
    "The ABI type " ++ abiType ++ " and the internal type " ++ internalType ++
      " have different array dimensions"
  | visibility text => "Unknown visibility `" ++ text ++ "`"
  | missingFunctions collected expected =>
    "There are functions in the ABI that were not added. Added functions (" ++
      Text.decimal collected.length ++ "): " ++ Text.quotedList collected ++
      ". Functions in ABI (" ++ Text.decimal expected.length ++ "): " ++ Text.quotedList expected
  | noMethodIdentifier name signature =>
    "Was about to compute the sighash of " ++ name ++ " based on the signature " ++ signature ++
      ". Expected this signature to appear in \"methodIdentifiers\""
  | otherSelector selector name signature expected =>
    "Computed the sighash " ++ selector ++ " of " ++ name ++ " based on the signature " ++
      signature ++ ", but the compiler reports " ++ expected
  | noGetter name =>
    "Failed to find a getter function of the state variable " ++ name ++ " in the ABI"
  | severalGetters name =>
    "Found multiple candidates for a getter function of the state variable " ++ name ++
      " in the ABI"
  | referenceOutOfBounds start length =>
    "Link reference " ++ Text.decimal start ++ ":" ++ Text.decimal length ++
      " is out of the bytecode bounds"
  | layoutSlot slot name contract =>
    "Invalid slot " ++ slot ++ " of " ++ name ++ " in the storage layout of contract " ++ contract
  | severalLayoutSlots name contract slots =>
    "Cannot link, found multiple matches for " ++ name ++ " in storage layout of contract " ++
      contract ++ ": " ++ String.intercalate ", " slots
  | assemblySlot candidate name contract =>
    "Invalid slot candidate " ++ candidate ++ " for " ++ name ++ " in " ++ contract
  | severalAssemblySlots name contract candidates =>
    "Cannot link, Found multiple matches for " ++ name ++ " in " ++ contract ++
      ", valid candidates: \x7b" ++ String.intercalate ", " candidates ++ "\x7d"
  | libraryCount address unit count =>
    "Expected exactly one library at address " ++ address ++ " in " ++ unit ++ ", found " ++
      Text.decimal count
  | primaryCount contract unit count =>
    "Expected exactly one primary contract " ++ contract ++ " in " ++ unit ++ ", found " ++
      Text.decimal count
  | severalImmutables name holders =>
    "Not expecting to find multiple immutables with the name " ++ name ++ ", got matches [" ++
      String.intercalate ", " (holders.map Text.decimal) ++ "]"
  | severalUnits contract keys =>
    "Cannot link to " ++ contract ++ ", found multiple matching build units: " ++
      String.intercalate ", " keys
  | noSourceId file => "No source ID of " ++ file ++ " in the compiler output"
  | noContractOutput name file => "No contract " ++ name ++ " in the output of " ++ file
  | noImmutable id contract =>
    "No declaration " ++ id ++ " of an immutable of " ++ contract ++ " in the AST"

/-- Why the code written into the instrumented sources was refused. -/
inductive GeneratedFault where
  | rejected (compiler text : String)
  | missingFinders
  deriving DecidableEq, Repr

def GeneratedFault.message : GeneratedFault → String
  | rejected compiler text => compiler ++ " had an error:\n" ++ text
  | missingFinders => "Failed to generate the internal function finders"

/-- Why a configuration, an argument or a compiler run could not be used. -/
inductive ToolFault where
  | arguments (text : String)
  | flagWithoutValue (flag : String)
  | optimizeRuns (value : String) (fault : Text.IntegerFault)
  | sourceReading (path : String) (fault : FileFault)
  | configReading (path : String) (fault : FileFault)
  | configParsing (path : String)
  | modelCreating (path : String) (fault : FileFault)
  | notStarted (executable : String)
  | notSpawned (executable : String)
  | versionFailed (executable stderr : String)
  | runFailed (executable stderr : String)
  | noVersion (stdout : String)
  | versionPart (fault : Text.IntegerFault)
  | unreadableOutput (executable : String)
  | inputPath (fault : FileFault)
  | missingFiles
  | verifyAndAssert
  | other (text : String)
  deriving DecidableEq, Repr

def ToolFault.message : ToolFault → String
  | arguments text =>
    "Compiler arguments `" ++ text ++ "` parsing error: " ++ Text.Words.unclosedMessage
  | flagWithoutValue flag => "The `" ++ flag ++ "` flag requires a value"
  | optimizeRuns value fault =>
    "Invalid `--optimize-runs` value `" ++ value ++ "`: " ++ fault.message
  | sourceReading path fault =>
    "Source file " ++ Text.quotedString path ++ " reading error: " ++ fault.message
  | configReading path fault =>
    "File " ++ Text.quotedString path ++ " reading error: " ++ fault.message
  | configParsing path => "File " ++ Text.quotedString path ++ " parsing error"
  | modelCreating path fault =>
    "File " ++ Text.quotedString path ++ " creating error: " ++ fault.message
  | notStarted executable => executable ++ " subprocess error"
  | notSpawned executable => executable ++ " subprocess spawning error"
  | versionFailed executable stderr => executable ++ " version getting error: " ++ stderr
  | runFailed executable stderr => executable ++ " error: " ++ stderr
  | noVersion stdout => "Compiler version not found in `" ++ stdout ++ "`"
  | versionPart fault => "Compiler version parsing error: " ++ fault.message
  | unreadableOutput executable => executable ++ " subprocess output parsing error"
  | inputPath fault => fault.message
  | missingFiles => "The input files are missing"
  | verifyAndAssert => "Only one of `--verify` and `--assert` may be specified"
  | other text => text

/-- Why a build stopped. -/
inductive Error where
  | input (fault : InputFault)
  | inconsistency (fault : Inconsistency)
  | generated (fault : GeneratedFault)
  | file (fault : FileFault)
  | json
  | tool (fault : ToolFault)
  /-- A reference in a syntax tree has no node. -/
  | danglingReference (id : Int) (file : String)
  /-- A value type is defined through itself. -/
  | endlessType
  deriving DecidableEq, Repr

namespace Error

def message : Error → String
  | input fault => fault.message
  | inconsistency fault => "Internal consistency error: " ++ fault.message
  | generated fault => "Compilation error: " ++ fault.message
  | file fault => "I/O error: " ++ fault.message
  | json => "JSON error"
  | tool fault => fault.message
  | danglingReference id path =>
    "Could not find reference AST node " ++ Text.signedDecimal id ++ " in " ++ path
  | endlessType => "A value type is defined through itself"

/-- Whether the compiler refused the code written into the instrumented sources. -/
def isGenerated : Error → Bool
  | generated _ => true
  | _ => false

/-- Whether a syntax tree is broken, so that nothing may be concluded from it. -/
def isBrokenTree : Error → Bool
  | danglingReference _ _ | endlessType => true
  | _ => false

end Error

end ContractModel
