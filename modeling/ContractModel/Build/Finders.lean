import ContractModel.Build.Collect
import ContractModel.Instrument.Imports
import ContractModel.Instrument.Plan

/-! # Units with function finders

The sources of a file's units are instrumented and compiled again. If that is not possible, the
units stay as they are, without finders.
-/

namespace ContractModel

/-- A unit and the functions that have a finder in it, by symbol. -/
structure FoundUnit where
  finders : SortedMap String ContractFunction
  unit : BuildUnit

namespace Finders

def withoutFinders (units : List BuildUnit) : List FoundUnit := units.map fun u => ⟨∅, u⟩

/-- Plans the finders of the first unit; all units of a file have the same contracts. -/
def plan (units : List BuildUnit) : Build (Except InstrumentError FinderPlan) := do
  match units with
  | [] => return .ok .empty
  | first :: _ =>
    let s ← get
    let (plan, next) := (FinderPlan.ofUnit s.index.trees s.files.current first).run.run s.nextFinder
    set { s with nextFinder := next }
    return plan

/-- The edits with an entry for a file. -/
def withFile (edits : SourceEdits) (file : String) : SourceEdits :=
  if edits.contains file then edits else edits.insert file ∅

/-- Writes the instrumented copies; the finders and the path of the copy of the file. -/
def instrument (file : String) (units : List BuildUnit) :
    Build (Except InstrumentError (SortedMap String ContractFunction × String)) := do
  match ← plan units with
  | .error e => return .error e
  | .ok plan =>
    let s ← get
    let main := Path.normalize s.files.current file
    match (Redirect.imports s.files s.index.trees file).run.run (withFile plan.edits main) with
    | (.error e, _) => return .error e
    | (.ok _, edits) =>
      match Copies.write s.files edits with
      | (.error e, files) =>
        set { s with files := files }
        return .error e
      | (.ok written, files) =>
        set { s with files := files, copies := s.copies ++ written }
        return .ok (plan.finders, Copies.pathOf main)

/-- Notes that there are no finders. -/
def fallBack (units : List BuildUnit) : Build (List FoundUnit) := do
  modify fun s => { s with findersFailed := true }
  return withoutFinders units

/-- The units of the instrumented copy of a file, or the given ones if it cannot be compiled. -/
def instrumented (setting : BuildSetting) (file : String) (index : Nat) (units : List BuildUnit) :
    Build (List FoundUnit) := do
  if units.isEmpty then return []
  match ← instrument file units with
  | .error _ => fallBack units
  | .ok (finders, copy) =>
    tryCatch (do return (← Collect.units setting copy file index true).map fun u => ⟨finders, u⟩)
      fun e => if e.isGenerated then fallBack units else throw e

end Finders

end ContractModel
