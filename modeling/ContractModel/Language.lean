import ContractModel.Json.Basic
import ContractModel.Path
import ContractModel.Text.Number

/-! # Source languages

What depends on the language of a source: file extension, compiler, the keys of its syntax tree and
the output asked of the compiler.
-/

namespace ContractModel

inductive Language where
  | solidity
  | vyper
  deriving DecidableEq, Repr, Inhabited

namespace Language

def name : Language → String
  | solidity => "Solidity"
  | vyper => "Vyper"

def ofName? : String → Option Language
  | "Solidity" => some solidity
  | "Vyper" => some vyper
  | _ => none

def json (lang : Language) : Json := .string lang.name

/-- Sources with the extension `vy` are Vyper, all others Solidity. -/
def ofPath (path : String) : Language :=
  if Path.extension? path = some "vy" then vyper else solidity

def compilerName : Language → String
  | solidity => "solc"
  | vyper => "vyper"

/-- The program that compiles the language unless another is configured. -/
def defaultExecutable (lang : Language) : String := lang.compilerName

def hasImports (lang : Language) : Bool := lang = solidity

/-- The keys of a tree node's identifier and kind. -/
def nodeIdKey : Language → String
  | solidity => "id"
  | vyper => "node_id"

def nodeKindKey : Language → String
  | solidity => "nodeType"
  | vyper => "ast_type"

/-- The kind of the nodes that define contracts. -/
def contractKind : Language → String
  | solidity => "ContractDefinition"
  | vyper => "Module"

/-- Vyper writes selectors without leading zeros behind `0x`; what is no 32-bit number stays. -/
def normalizeSelector (lang : Language) (selector : String) : String :=
  match lang with
  | solidity => selector
  | vyper =>
    match Text.readNat 16 0xffffffff selector with
    | .ok n => "0x" ++ Text.hexadecimal n
    | .error _ => selector

/-- Vyper bytecode loses its leading `0x`. -/
def normalizeBytecode (lang : Language) (bytecode : String) : String :=
  match lang with
  | solidity => bytecode
  | vyper => (Text.afterPrefix? "0x" bytecode).getD bytecode

/-- What the compiler is asked for each contract. -/
def contractSelection : Language → List String
  | solidity => ["storageLayout", "abi", "evm.bytecode", "evm.deployedBytecode",
      "evm.methodIdentifiers", "evm.assembly"]
  | vyper => ["abi", "evm.bytecode", "evm.deployedBytecode", "evm.methodIdentifiers"]

/-- What the compiler is asked for each source. -/
def sourceSelection : Language → List String
  | solidity => ["id", "ast"]
  | vyper => ["ast"]

def outputSelection (lang : Language) : Json :=
  .object [("*", .object [("*", Json.ofStrings lang.contractSelection),
    ("", Json.ofStrings lang.sourceSelection)])]

end Language

end ContractModel
