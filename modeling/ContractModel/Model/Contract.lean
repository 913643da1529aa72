import ContractModel.Function.Basic
import ContractModel.Json.Schema
import ContractModel.Language
import ContractModel.SortedMap

/-! # Contracts in the build model

What the verifier is told of one contract. Lists that only steer the build are not written.
-/

namespace ContractModel

/-- A range of the bytecode that holds an immutable, with its value if a link sets it. -/
structure Immutable where
  offset : Nat
  length : Nat
  variableName : String
  value : Option String
  deriving DecidableEq, Repr

namespace Immutable

def preset (i : Immutable) (value : String) : Immutable := { i with value := some value }

def json (i : Immutable) : Json :=
  .object ([("offset", .ofNat i.offset), ("length", .ofNat i.length),
    ("varname", .string i.variableName)] ++ Json.member? "value" .string i.value)

end Immutable

structure ContractRecord where
  name : String
  file : String
  lang : Language
  reportFile : String
  address : String
  methods : List ContractFunction
  bytecode : String
  constructorBytecode : String
  sourceMap : String
  constructorSourceMap : String
  storageLayout : Option Json
  immutables : List Immutable
  /-- The finders of internal functions, by symbol. -/
  finders : SortedMap String Json
  /-- The methods of all contracts of the unit; only the primary contract has them. -/
  allMethods : List ContractFunction
  types : List SourceType
  compilerName : String
  compilerVersion : String
  optimizationFlags : String
  internalFunctions : List ContractFunction
  publicFunctions : List ContractFunction
  sourceBytes : Option SourceRange
  deriving Inhabited

namespace ContractRecord

/-- The internal and then the public functions, each signature once. -/
def instrumentable (c : ContractRecord) : List ContractFunction :=
  (c.internalFunctions ++ c.publicFunctions).foldl
    (fun fs f => if fs.any f.sameSignatures then fs else fs ++ [f]) []

def json (c : ContractRecord) : Json :=
  .object [("name", .string c.name), ("original_file", .string c.file),
    ("lang", c.lang.json), ("file", .string c.reportFile), ("address", .string c.address),
    ("methods", .array (c.methods.map ContractFunction.json)), ("bytecode", .string c.bytecode),
    ("constructorBytecode", .string c.constructorBytecode), ("srcmap", .string c.sourceMap),
    ("varmap", .string ""), ("constructorSrcmap", .string c.constructorSourceMap),
    ("storageLayout", c.storageLayout.getD .null),
    ("immutables", .array (c.immutables.map Immutable.json)),
    ("internalFunctions", Json.ofMap (fun j => j) c.finders),
    ("allMethods", .array (c.allMethods.map ContractFunction.json)),
    ("types", .array (c.types.map SourceType.json)), ("compilerName", .string c.compilerName),
    ("compilerVersion", .string c.compilerVersion),
    ("optimizationFlags", .string c.optimizationFlags)]

end ContractRecord

end ContractModel
