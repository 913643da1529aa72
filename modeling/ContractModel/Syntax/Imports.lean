import ContractModel.Syntax.Index

/-! # Imported files

The files that a source imports, directly or through others, and itself.
-/

namespace ContractModel

namespace Imports

/-- Slashes that follow a slash are dropped. -/
def singleSlashes : List Char → List Char
  | [] => []
  | [c] => [c]
  | '/' :: '/' :: cs => singleSlashes ('/' :: cs)
  | c :: cs => c :: singleSlashes cs

/-- The targets of a source's import directives. -/
def targets (ts : Trees) (root file : String) : List String :=
  (ts.nodesOf root file).filterMap fun n =>
    if n.is "ImportDirective" then
      (n.string? "absolutePath").map fun path => String.ofList (singleSlashes path.toList)
    else none

/-- Follows the waiting files, at most the given number of them. -/
def follow (next : String → List String) :
    Nat → SortedMap String Unit → List String → SortedMap String Unit
  | 0, seen, _ => seen
  | _, seen, [] => seen
  | steps + 1, seen, file :: waiting =>
    if seen.contains file then follow next steps seen waiting
    else follow next steps (seen.insert file ()) ((next file).reverse ++ waiting)

/-- How many files may come to wait: the first one and the target of each directive. -/
def bound (ts : Trees) (root : String) : Nat :=
  ((ts.unitsOf root).total fun file _ => (targets ts root file).length) + 1

end Imports

/-- The files imported by a source, in order; itself is one of them. -/
def Trees.importedFiles (ts : Trees) (root compiled : String) : List String :=
  (Imports.follow (Imports.targets ts root) (Imports.bound ts root) ∅ [compiled]).keys

end ContractModel
