import ContractModel.Error
import ContractModel.RecentCache
import ContractModel.SortedMap
import ContractModel.Syntax.FlatTree
import ContractModel.Types.SourceType

/-! # The index of syntax trees

For each file that was compiled, the trees of all sources the compiler read for it. Looking up a
contract's definition and the types of an imported file is remembered in bounded caches.
-/

namespace ContractModel

/-- The trees of one compilation, by source. -/
abbrev Units := SortedMap String FlatTree

/-- The trees of all compilations, by the file that was compiled. -/
abbrev Trees := SortedMap String Units

/-- A compiled source: its identifier in the compilation and its tree. -/
structure CompiledSource where
  id : Nat
  tree : Option Json

namespace Trees

def unitsOf (ts : Trees) (root : String) : Units := ts.getD root ∅

def unit? (ts : Trees) (root compiled : String) : Option FlatTree :=
  (ts.unitsOf root).get? compiled

/-- The nodes of a source, none if it was not compiled. -/
def nodesOf (ts : Trees) (root compiled : String) : List Node :=
  ((ts.unit? root compiled).map FlatTree.nodes).getD []

/-- How many nodes the sources of a compilation have. -/
def nodeCount (ts : Trees) (root : String) : Nat :=
  (ts.unitsOf root).total fun _ t => t.nodes.length

/-- The first source, by name, that has a node with the identifier. -/
def holder? (ts : Trees) (root : String) (id : Int) : Option (String × FlatTree) :=
  (ts.unitsOf root).entries.find? fun e => e.2.contains id

def node? (ts : Trees) (root : String) (id : Int) : Option Node :=
  (ts.holder? root id).bind fun e => e.2.get? id

/-- The source that declares the identifier. -/
def fileOf (ts : Trees) (root : String) (id : Int) : Except Error String :=
  match ts.holder? root id with
  | some (file, _) => .ok file
  | none => .error (.danglingReference id root)

/-- The node that declares the identifier. -/
def definition (ts : Trees) (root : String) (id : Int) : Except Error Node :=
  match ts.node? root id with
  | some n => .ok n
  | none => .error (.danglingReference id root)

def isLibrary (ts : Trees) (root compiled : String) (id : Int) : Bool :=
  (((ts.unit? root compiled).bind fun u => u.get? id).map Node.isLibrary).getD false

/-- The first definition of the contract; a Vyper source has only one, of any name. -/
def findContract (ts : Trees) (root compiled contract : String) : Option Int :=
  ((ts.nodesOf root compiled).find? fun n =>
    n.isContractDefinition && (n.lang == .vyper || n.name? == some contract)).map Node.id

/-- Flattens the sources of one compilation; every source needs a tree. -/
def unitsOfSources (root : String) (lang : Language) :
    List (String × CompiledSource) → Except Error (List (String × FlatTree))
  | [] => .ok []
  | (compiled, source) :: rest =>
    match source.tree with
    | none => .error (.inconsistency (.noTree root compiled))
    | some tree => do
      let units ← unitsOfSources root lang rest
      return (compiled, FlatTree.ofJson lang tree) :: units

/-- The declarations that calls in a contract refer to. -/
def callReferences (ts : Trees) (root compiled contract : String) : List Int :=
  (ts.nodesOf root compiled).filterMap fun n =>
    if n.is "FunctionCall" && n.contract == some contract then do
      (← (← n.get? "expression").get? "referencedDeclaration").asId?
    else none

/-- The contracts whose functions a contract calls. -/
def calledContracts (ts : Trees) (root compiled contract : String) : List String :=
  (ts.callReferences root compiled contract).filterMap fun id =>
    (ts.node? root id).bind Node.contract

end Trees

structure SyntaxIndex where
  trees : Trees
  contractDefinitions : RecentCache (String × String × String) (Option Int)
  importedTypes : RecentCache (String × String) (List SourceType)

namespace SyntaxIndex

def contractDefinitionCapacity : Nat := 128
def importedTypesCapacity : Nat := 32

def empty : SyntaxIndex :=
  ⟨∅, .empty contractDefinitionCapacity, .empty importedTypesCapacity⟩

/-- Adds the sources of a compilation, in place of an earlier one of the same file. -/
def insert (ix : SyntaxIndex) (root : String) (sources : SortedMap String CompiledSource)
    (lang : Language) : Except Error SyntaxIndex := do
  let units ← Trees.unitsOfSources root lang sources.entries
  return { ix with trees := ix.trees.insert root (SortedMap.ofList units) }

end SyntaxIndex

/-- A question to the index: it may fail, and what it remembers stays remembered. -/
abbrev Query := ExceptT Error (StateM SyntaxIndex)

namespace Query

def trees : Query Trees := do return (← get).trees

/-- The identifier of a contract's definition. -/
def contractReference (root compiled contract : String) : Query (Option Int) := do
  let ix ← get
  let key := (root, compiled, contract)
  match ix.contractDefinitions.get? key with
  | (some found, cache) =>
    set { ix with contractDefinitions := cache }
    return found
  | (none, _) =>
    let found := ix.trees.findContract root compiled contract
    set { ix with contractDefinitions := ix.contractDefinitions.insert key found }
    return found

/-- The definition of a contract. -/
def contractDefinition (root compiled contract : String) : Query Node := do
  let reference ← contractReference root compiled contract
  let unit := (← trees).unit? root compiled
  match reference.bind fun id => unit.bind fun u => u.get? id with
  | some n => return n
  | none => throw (.inconsistency (.noContractDefinition contract compiled root))

/-- The types of an imported file, collected once. -/
def importedTypes (root compiled : String) (collect : Query (List SourceType)) :
    Query (List SourceType) := do
  let ix ← get
  match ix.importedTypes.get? (root, compiled) with
  | (some types, cache) =>
    set { ix with importedTypes := cache }
    return types
  | (none, _) =>
    let types ← collect
    modify fun ix =>
      { ix with importedTypes := ix.importedTypes.insert (root, compiled) types }
    return types

end Query

end ContractModel
