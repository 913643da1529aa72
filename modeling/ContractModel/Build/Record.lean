import ContractModel.Build.State
import ContractModel.Function.Catalog
import ContractModel.Link.Bytecode
import ContractModel.Types.Reachable

/-! # Recording a compiled contract

What the model is told of a contract: its functions and types, its bytecode with the addresses of
libraries in it, and its immutables.
-/

namespace ContractModel

/-- One compilation: the file it was run for, how, and what came of it. -/
structure Compilation where
  file : String
  unitName : String
  toolchain : Toolchain
  output : CompilerOutput

namespace Record

/-- The machine code with library addresses; the addresses are noted for the units. -/
def linkBytecode (setting : BuildSetting) (code : Bytecode) : Build String := do
  let book := (← get).book
  let resolve := book.find setting.config.address
  match Linking.link resolve code.object (code.linkReferences.getD ∅) with
  | .ok linked =>
    modify fun s => { s with linkedLibraries := s.linkedLibraries ++ linked.libraryAddresses }
    return linked.bytecode
  | .error (.unresolved fault) => throw (.input fault)
  | .error (.outOfBounds start length) =>
    throw (.inconsistency (.referenceOutOfBounds start length))

/-- The immutables behind one declaration. -/
def immutablesOf (ts : Trees) (root contract : String) (id : String)
    (ranges : List ByteRange) : Except Error (List Immutable) :=
  match ((Text.readInt id).toOption.bind (ts.node? root)).bind Node.name? with
  | some name => .ok (ranges.map fun r => ⟨r.start, r.length, name, none⟩)
  | none => .error (.inconsistency (.noImmutable id contract))

def immutables (ts : Trees) (root contract : String) (code : Bytecode) :
    Except Error (List Immutable) := do
  let found ← (code.immutableReferences.getD ∅).entries.mapM fun (id, ranges) =>
    immutablesOf ts root contract id ranges
  return found.flatten

/-- Where a contract is defined, if the tree says so. -/
def sourceRange (root file name : String) : Build (Option SourceRange) := do
  let (r, index) := (Query.contractDefinition root file name).run.run (← get).index
  modify fun s => { s with index := index }
  return r.toOption.bind Node.src?

/-- The types that a contract can use; there are none in Vyper. -/
def types (root file name : String) (lang : Language) : Build (List SourceType) :=
  match lang with
  | .solidity => Build.query (Query.sourceTypes root file name lang)
  | .vyper => pure []

/-- The record of a contract. Only a primary contract needs bytecode. -/
def ofContract (setting : BuildSetting) (c : Compilation) (reportFile : String) (isPrimary : Bool)
    (file name : String) : Build ContractRecord := do
  let lang := c.toolchain.lang
  match c.output.contract? file name with
  | none => throw (.inconsistency (.noContractOutput name file))
  | some contract =>
    let types ← types c.file file name lang
    let subject : Catalog.Subject := ⟨(← get).index.trees, c.file, lang, contract, types⟩
    let functions ← Build.query (Catalog.collect subject file name)
    let source ← sourceRange c.file file name
    let machine := contract.machine.getD .empty
    let deployed := machine.deployedCode.getD .empty
    let creation := machine.constructorCode.getD .empty
    let bytecode ← linkBytecode setting deployed
    if bytecode.isEmpty && isPrimary then throw (.input (.noDeployedBytecode name))
    let constructorBytecode ← linkBytecode setting creation
    let immutables ← ofExcept (immutables (← get).index.trees c.file name deployed)
    let address ← Build.input ((← get).book.find setting.config.address file name)
    return {
      name := name
      file := file
      lang := lang
      reportFile := reportFile
      address := address
      methods := functions.filter fun f => f.visibility.isExternal
      bytecode := lang.normalizeBytecode bytecode
      constructorBytecode := lang.normalizeBytecode constructorBytecode
      sourceMap := deployed.sourceMapText
      constructorSourceMap := creation.sourceMapText
      storageLayout := contract.storageLayout
      immutables := immutables
      finders := setting.finders.getD name ∅
      allMethods := []
      types := types
      compilerName := c.toolchain.compilerName
      compilerVersion := c.toolchain.version.text
      optimizationFlags := c.toolchain.optimizationFlags
      internalFunctions := functions.filter fun f => f.visibility.isInternal
      publicFunctions := functions.filter fun f => f.visibility = .pub
      sourceBytes := source }

end Record

end ContractModel
