import ContractModel.Compilation.Bytecode
import ContractModel.Interface.Entry
import ContractModel.Syntax.Index

/-! # Compiler output

What the compiler answers: the contracts of each file, the sources it read, and its messages.
-/

namespace ContractModel

structure Machine where
  assembly : Option String
  constructorCode : Option Bytecode
  deployedCode : Option Bytecode
  methodIdentifiers : Option (SortedMap String String)

namespace Machine

def empty : Machine := ⟨none, none, none, none⟩

def read (w : Json.Written) : Option Machine := do
  let ms ← Json.Schema.record ["assembly", "bytecode", "deployedBytecode", "methodIdentifiers"] w
  return {
    assembly := ← Json.Schema.optional "assembly" Json.Written.asString? ms
    constructorCode := ← Json.Schema.optional "bytecode" Bytecode.read ms
    deployedCode := ← Json.Schema.optional "deployedBytecode" Bytecode.read ms
    methodIdentifiers :=
      ← Json.Schema.optional "methodIdentifiers" (Json.Schema.map Json.Written.asString?) ms }

def json (m : Machine) : Json :=
  .object (Json.member? "assembly" .string m.assembly ++
    Json.member? "bytecode" Bytecode.json m.constructorCode ++
    Json.member? "deployedBytecode" Bytecode.json m.deployedCode ++
    Json.member? "methodIdentifiers" (Json.ofMap .string) m.methodIdentifiers)

end Machine

structure CompiledContract where
  interface : List InterfaceEntry
  storageLayout : Option Json
  machine : Option Machine

namespace CompiledContract

def methodIdentifiers (c : CompiledContract) : SortedMap String String :=
  (c.machine.bind Machine.methodIdentifiers).getD ∅

/-- The source signatures of the functions and constructors. -/
def sourceSignatures (c : CompiledContract) : List String :=
  (c.interface.filter fun e => e.isFunction || e.isConstructor).map InterfaceEntry.sourceSignature

def read (w : Json.Written) : Option CompiledContract := do
  let ms ← Json.Schema.record ["abi", "storageLayout", "evm"] w
  return {
    interface := ← Json.Schema.defaulted "abi" (Json.Schema.list InterfaceEntry.read) [] ms
    storageLayout := ← Json.Schema.optional "storageLayout" Json.Schema.any ms
    machine := ← Json.Schema.optional "evm" Machine.read ms }

def json (c : CompiledContract) : Json :=
  .object ([("abi", .array (c.interface.map InterfaceEntry.json))] ++
    Json.member? "storageLayout" (fun j => j) c.storageLayout ++
    Json.member? "evm" Machine.json c.machine)

end CompiledContract

namespace CompiledSource

def read (w : Json.Written) : Option CompiledSource := do
  let ms ← Json.Schema.record ["id", "ast"] w
  return {
    id := ← Json.Schema.defaulted "id" Json.Written.asWord? 0 ms
    tree := ← Json.Schema.optional "ast" Json.Schema.any ms }

def json (s : CompiledSource) : Json :=
  .object ([("id", .ofNat s.id)] ++ Json.member? "ast" (fun j => j) s.tree)

end CompiledSource

/-- A message of the compiler. -/
structure Diagnostic where
  component : String
  errorCode : Option String
  formattedMessage : String
  message : String
  severity : String
  kind : String
  deriving DecidableEq, Repr

namespace Diagnostic

def isError (d : Diagnostic) : Bool := d.severity == "error"

/-- Warnings with these codes stop a build: a return variable without a name may stay
unassigned. -/
def severeCodes : List String := ["6321"]

def isSevere (d : Diagnostic) : Bool :=
  match d.errorCode with
  | none => false
  | some code => severeCodes.contains code

/-- The formatted message, or the plain one if there is none. -/
def text (d : Diagnostic) : String :=
  if d.formattedMessage.isEmpty then d.message else d.formattedMessage

def read (w : Json.Written) : Option Diagnostic := do
  let ms ← Json.Schema.record
    ["component", "errorCode", "formattedMessage", "message", "severity", "type"] w
  return {
    component := ← Json.Schema.defaulted "component" Json.Written.asString? "" ms
    errorCode := ← Json.Schema.optional "errorCode" Json.Written.asString? ms
    formattedMessage := ← Json.Schema.defaulted "formattedMessage" Json.Written.asString? "" ms
    message := ← Json.Schema.defaulted "message" Json.Written.asString? "" ms
    severity := ← Json.Schema.required "severity" Json.Written.asString? ms
    kind := ← Json.Schema.defaulted "type" Json.Written.asString? "" ms }

def json (d : Diagnostic) : Json :=
  .object ([("component", .string d.component)] ++
    Json.member? "errorCode" .string d.errorCode ++
    [("formattedMessage", .string d.formattedMessage), ("message", .string d.message),
      ("severity", .string d.severity), ("type", .string d.kind)])

end Diagnostic

structure CompilerOutput where
  contracts : Option (SortedMap String (SortedMap String CompiledContract))
  sources : Option (SortedMap String CompiledSource)
  errors : Option (List Diagnostic)

namespace CompilerOutput

/-- The contracts of all files. -/
def allContracts (o : CompilerOutput) : SortedMap String (SortedMap String CompiledContract) :=
  o.contracts.getD ∅

def allSources (o : CompilerOutput) : SortedMap String CompiledSource := o.sources.getD ∅

def contractsOf? (o : CompilerOutput) (path : String) :
    Option (SortedMap String CompiledContract) := o.contracts.bind fun m => m.get? path

def contract? (o : CompilerOutput) (path name : String) : Option CompiledContract :=
  (o.contractsOf? path).bind fun m => m.get? name

def firstError (o : CompilerOutput) : Option Diagnostic :=
  (o.errors.getD []).find? Diagnostic.isError

def severeWarnings (o : CompilerOutput) : List Diagnostic :=
  (o.errors.getD []).filter Diagnostic.isSevere

def read (w : Json.Written) : Option CompilerOutput := do
  let ms ← Json.Schema.record ["contracts", "sources", "errors"] w
  return {
    contracts := ← Json.Schema.optional "contracts"
      (Json.Schema.map (Json.Schema.map CompiledContract.read)) ms
    sources := ← Json.Schema.optional "sources" (Json.Schema.map CompiledSource.read) ms
    errors := ← Json.Schema.optional "errors" (Json.Schema.list Diagnostic.read) ms }

def json (o : CompilerOutput) : Json :=
  .object (Json.member? "contracts" (Json.ofMap (Json.ofMap CompiledContract.json)) o.contracts ++
    Json.member? "sources" (Json.ofMap CompiledSource.json) o.sources ++
    Json.member? "errors" (fun ds => .array (ds.map Diagnostic.json)) o.errors)

end CompilerOutput

end ContractModel
