import ContractModel.Compilation.Output
import ContractModel.Sorting
import ContractModel.Syntax.Inheritance

/-! # Files that a compilation depends on

Starting from the compiled file, the files of the bases of each contract, of the libraries linked
into its deployed bytecode, and of the libraries whose internal functions it calls.
-/

namespace ContractModel.Dependencies

/-- The file that declares a library, if exactly one does. -/
def libraryFile (current : String) (output : CompilerOutput) (library : String) : Option String :=
  let files := (output.allContracts.filter fun _ contracts => contracts.contains library).keys
  match (SortedMap.ofList (files.map fun file => (Path.normalize current file, file))).values with
  | [file] => some file
  | _ => none

/-- The files with the libraries that a contract's deployed bytecode refers to. -/
def linkedFiles (contract : CompiledContract) : List String :=
  match (contract.machine.bind Machine.deployedCode).bind Bytecode.linkReferences with
  | some references => references.keys
  | none => []

/-- The files that a contract depends on, in the order in which they come to wait. -/
def ofContract (current root : String) (output : CompilerOutput) (file : String)
    (name : String) : Query (List String) := do
  let bases ← Query.baseContracts root file name
  let baseFiles := Sorting.sort (fun f g => f ≤ g) (bases.map BaseContract.file)
  let linked := ((output.contract? file name).map linkedFiles).getD []
  let called := (← Query.trees).calledContracts root file name
  let libraries := (SortedMap.distinct called).filterMap (libraryFile current output)
  return baseFiles ++ linked ++ libraries

/-- The names of a file's contracts. -/
def contractNames (output : CompilerOutput) (file : String) : List String :=
  ((output.contractsOf? file).map SortedMap.keys).getD []

/-- The files that the contracts of a file depend on; Vyper contracts depend on none. -/
def ofFile (current root : String) (lang : Language) (output : CompilerOutput) (file : String) :
    Query (List String) :=
  match lang with
  | .vyper => pure []
  | .solidity => do
    return (← (contractNames output file).mapM (ofContract current root output file)).flatten

/-- Follows the waiting files, the last one first and at most the given number of them. A path is
followed in one spelling only. -/
def follow (current : String) (names : String → List String)
    (next : String → Query (List String)) :
    Nat → List String → SortedMap String (List String) → List String →
      Query (SortedMap String (List String))
  | 0, _, found, _ => pure found
  | _, _, found, [] => pure found
  | steps + 1, seen, found, file :: waiting =>
    let place := Path.normalize current file
    if seen.contains place then follow current names next steps seen found waiting
    else do
      let more ← next file
      follow current names next steps (place :: seen) (found.insert file (names file))
        (more.reverse ++ waiting)

/-- How many files may come to wait: a contract has no more bases, and calls no more libraries, than
there are nodes. -/
def bound (nodes : Nat) (output : CompilerOutput) : Nat :=
  (output.allContracts.total fun _ contracts =>
    contracts.total fun _ c => 2 * nodes + 1 + (linkedFiles c).length) + 1

/-- The files that a compiled file depends on, itself included, with the contracts of each. -/
def collect (current root : String) (lang : Language) (output : CompilerOutput) :
    Query (SortedMap String (List String)) := do
  let nodes := (← Query.trees).nodeCount root
  follow current (contractNames output) (ofFile current root lang output)
    (bound nodes output) [] ∅ [root]

end ContractModel.Dependencies
