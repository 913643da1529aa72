import ContractModel.Syntax.Index

/-! # Inheritance

The contracts that a contract inherits from, itself first, in breadth-first order.
-/

namespace ContractModel

structure BaseContract where
  file : String
  name : String
  isLibrary : Bool
  deriving DecidableEq, Repr

namespace Inheritance

/-- The base that an inheritance specifier of a contract names. -/
def ofSpecifier (ts : Trees) (root : String) (heir : Int) (specifier : Json) :
    Except Error (BaseContract × Node) := do
  let reference? := do (← (← specifier.get? "baseName").get? "referencedDeclaration").asId?
  match reference? with
  | none => throw (.inconsistency (.noBaseReference heir))
  | some reference =>
    let file ← ts.fileOf root reference
    let base ← ts.definition root reference
    return (⟨file, base.name, base.isLibrary⟩, base)

/-- The direct bases of a contract. -/
def directBases (ts : Trees) (root : String) (n : Node) :
    Except Error (List (BaseContract × Node)) :=
  if (n.fields.lookup "baseContracts").isNone then .error (.inconsistency (.noBaseList n.id))
  else (n.items "baseContracts").mapM (ofSpecifier ts root n.id)

/-- Adds a base that was not met before, also to the nodes still to be visited. -/
def addBase (state : List BaseContract × List Node) (base : BaseContract × Node) :
    List BaseContract × List Node :=
  if state.1.contains base.1 then state else (state.1 ++ [base.1], state.2 ++ [base.2])

/-- Visits the waiting nodes in order, at most the given number of them. -/
def visit (ts : Trees) (root : String) :
    Nat → List BaseContract → List Node → Except Error (List BaseContract)
  | 0, found, _ => .ok found
  | _, found, [] => .ok found
  | steps + 1, found, n :: waiting => do
    let bases ← directBases ts root n
    let (found, added) := bases.foldl addBase (found, [])
    visit ts root steps found (waiting ++ added)

/-- The bases of a contract given its definition; no more are found than there are nodes. -/
def basesOf (ts : Trees) (root : String) (first : BaseContract) (n : Node) :
    Except Error (List BaseContract) :=
  if n.lang = .vyper then .ok [first]
  else
    visit ts root (ts.nodeCount root + 2) [first] [n]

end Inheritance

namespace Query

/-- Answers a question that needs the trees only. -/
def ofExcept {α : Type} (r : Except Error α) : Query α := MonadExcept.ofExcept r

/-- The contracts that a contract inherits from, itself first. -/
def baseContracts (root compiled contract : String) : Query (List BaseContract) := do
  let n ← contractDefinition root compiled contract
  let ts ← trees
  ofExcept (Inheritance.basesOf ts root ⟨compiled, contract, n.isLibrary⟩ n)

end Query

end ContractModel
