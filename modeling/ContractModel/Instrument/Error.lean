import ContractModel.Error

/-! # Failures of instrumentation

Why the sources of a build could not be instrumented. All but a broken tree leave the build with the
sources as they are.
-/

namespace ContractModel

inductive ImportFault where
  | noAbsolutePath
  | noSourceRange
  | bothAliases
  | noForeignSymbol
  | unknownForeignSymbol
  | rangeOutOfBounds
  | noSymbolList
  deriving DecidableEq, Repr

def ImportFault.message : ImportFault → String
  | noAbsolutePath => "no absolute path"
  | noSourceRange => "no source range"
  | bothAliases => "both unit and symbol aliases"
  | noForeignSymbol => "no foreign symbol"
  | unknownForeignSymbol => "unrecognized foreign symbol"
  | rangeOutOfBounds => "source range out of bounds"
  | noSymbolList => "no symbol list in the directive"

inductive InstrumentError where
  | noLocation (function contract : String)
  | noParameterNames (function contract : String)
  | noNodeId (function : String)
  | noDefinition (function : String) (id : Int)
  | undeclared (name typeName : String)
  | modifier (function : String)
  | importDirective (file : String) (id : Int) (fault : ImportFault)
  | conflict (file : String) (offset : Nat)
  | byteMismatch (file : String) (offset : Nat) (expected : UInt8) (found : Option UInt8)
  | file (path : String) (fault : FileFault)
  | compilation (text : String)
  /-- An argument has no entry in the list of names. -/
  | missingName (index : Nat)
  deriving DecidableEq, Repr

/-- The character whose code point is the byte. -/
def byteChar (b : UInt8) : Char := Char.ofNat b.toNat

def InstrumentError.message : InstrumentError → String
  | noLocation function contract =>
    "Implemented function " ++ function ++ " in " ++ contract ++ " has no location"
  | noParameterNames function contract =>
    "No argument names for " ++ function ++ " in " ++ contract
  | noNodeId function => "No AST ID for " ++ function
  | noDefinition function id =>
    "No definition node " ++ Text.signedDecimal id ++ " for " ++ function
  | undeclared name typeName =>
    "Argument " ++ name ++ " of type " ++ typeName ++
      " cannot be renamed without a type declaration"
  | modifier function => "Unrecognized modifier of " ++ function
  | importDirective path id fault =>
    "Cannot rewrite import " ++ Text.signedDecimal id ++ " in " ++ path ++ ": " ++ fault.message
  | conflict path offset =>
    "Conflicting instrumentation at " ++ Text.decimal offset ++ " in " ++ path
  | byteMismatch path offset expected found =>
    "Expected " ++ Text.quotedChar (byteChar expected) ++ " at " ++ Text.decimal offset ++ " in " ++
      path ++ ", found " ++ Text.quotedOption (found.map byteChar)
  | file path fault => path ++ ": " ++ fault.message
  | compilation text => "Compilation of the instrumented sources failed: " ++ text
  | missingName index => "Argument " ++ Text.decimal index ++ " has no name entry"

end ContractModel
