import ContractModel.Function.Visibility
import ContractModel.Sorting
import ContractModel.Syntax.SourceRange
import ContractModel.Types.ParameterType

/-! # Functions of contracts

A function as the build model lists it. Functions are ordered by source signature and then by
canonical signature.
-/

namespace ContractModel

/-- Where the body of a function stands. -/
structure FunctionLocation where
  file : String
  src : SourceRange
  deriving DecidableEq, Repr

structure ContractFunction where
  name : String
  arguments : List ParameterType
  parameterNames : List String
  results : List ParameterType
  selector : String
  notPayable : Bool
  isInInterface : Bool
  fromLibrary : Bool
  isConstructor : Bool
  mutability : String
  visibility : Visibility
  implemented : Bool
  overrides : Bool
  nodeId : Option Int
  location : Option FunctionLocation
  deriving Repr, Inhabited

namespace ContractFunction

/-- A name with the formatted arguments. -/
def signatureWith (format : ParameterType → String) (name : String)
    (arguments : List ParameterType) : String :=
  name ++ "(" ++ String.intercalate "," (arguments.map format) ++ ")"

def signature (f : ContractFunction) : String :=
  signatureWith ParameterType.signature f.name f.arguments

def sourceSignature (f : ContractFunction) : String :=
  signatureWith ParameterType.sourceSignature f.name f.arguments

/-- Whether an argument's canonical form depends on the library it is declared in. -/
def hasLibraryArgument (f : ContractFunction) : Bool :=
  f.arguments.any fun t => t.librarySignature.isSome

def hasFunctionArgument (f : ContractFunction) : Bool := f.arguments.any fun t => t.isFunction

def typesAgree : List ParameterType → List ParameterType → Bool
  | [], [] => true
  | s :: ss, t :: ts => s.sourceType.agrees t.sourceType && typesAgree ss ts
  | _, _ => false

/-- Whether two functions have one name and agreeing types of arguments and results. -/
def sameInternally (f g : ContractFunction) : Bool :=
  f.name == g.name && typesAgree f.arguments g.arguments && typesAgree f.results g.results

/-- Whether two functions have the same two signatures. -/
def sameSignatures (f g : ContractFunction) : Bool :=
  f.sourceSignature == g.sourceSignature && f.signature == g.signature

def le (f g : ContractFunction) : Bool :=
  f.sourceSignature < g.sourceSignature ||
    (f.sourceSignature == g.sourceSignature && f.signature ≤ g.signature)

/-- The functions in order; equal ones keep their places. -/
def sort (fs : List ContractFunction) : List ContractFunction :=
  Sorting.sort le fs

def json (f : ContractFunction) : Json :=
  .object [("name", .string f.name), ("paramNames", Json.ofStrings f.parameterNames),
    ("fullArgs", .array (f.arguments.map ParameterType.json)),
    ("returns", .array (f.results.map ParameterType.json)), ("sighash", .string f.selector),
    ("notpayable", .bool f.notPayable), ("isABI", .bool f.isInInterface),
    ("stateMutability", .object [("keyword", .string f.mutability)]),
    ("visibility", .string f.visibility.text),
    ("sighashIsFromOtherName", .bool f.hasLibraryArgument)]

end ContractFunction

end ContractModel
