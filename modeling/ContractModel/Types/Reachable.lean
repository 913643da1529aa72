import ContractModel.Syntax.Imports
import ContractModel.Syntax.Inheritance
import ContractModel.Types.Resolution

/-! # Types in scope

The declared types that a contract can name: those of the imported files outside of contracts, those
of its bases, and those of the libraries in the files of its bases.
-/

namespace ContractModel.Query

/-- The types that a file declares outside of contracts. -/
def fileTypes (root compiled : String) : Query (List SourceType) := do
  let ts ← trees
  ofExcept <| ((ts.nodesOf root compiled).filter fun n =>
    n.contract.isNone && n.isTypeDefinition).mapM (SourceType.ofDefinition ts root)

/-- The type that a node defines, if its contract is a base or a library. -/
def ownedType (root file : String) (bases : List BaseContract) (n : Node) :
    Query (List SourceType) := do
  if !n.isTypeDefinition then return []
  match n.contract with
  | none => return []
  | some owner =>
    let reference ← contractReference root file owner
    let ts ← trees
    let isLibrary := (reference.map (ts.isLibrary root file)).getD false
    if bases.any (fun b => b.name == owner) || isLibrary then
      return [← ofExcept (SourceType.ofDefinition ts root n)]
    else return []

/-- The types in scope of a contract. -/
def sourceTypes (root compiled contract : String) (lang : Language) :
    Query (List SourceType) := do
  let bases ← baseContracts root compiled contract
  let ts ← trees
  let imported := if lang.hasImports then ts.importedFiles root compiled else []
  let ofFiles ← imported.mapM fun file => importedTypes root file (fileTypes root file)
  let baseFiles := (SortedMap.ofList (bases.map fun b => (b.file, ()))).keys
  let ofBases ← baseFiles.mapM fun file =>
    (ts.nodesOf root file).mapM (ownedType root file bases)
  return ofFiles.flatten ++ (ofBases.map List.flatten).flatten

end ContractModel.Query
