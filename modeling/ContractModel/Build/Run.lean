import ContractModel.Build.Links
import ContractModel.Build.Model
import ContractModel.Function.Lookup

/-! # Running a build

The configured files are built one after the other, in order, and then the links are set. The
instrumented copies and the compiler outputs are removed in the end, whatever came of the build,
unless it is to be debugged. Only a broken syntax tree stops everything at once.
-/

namespace ContractModel

namespace Build

/-- Checks the method to be verified against the unit of the verified contract. -/
def checkMethod (config : Config) (file : String) (units : List BuildUnit) : Except Error Unit :=
  match config.method, config.verifiedContract with
  | some method, some contract =>
    if (config.contractsOf file).contains contract then
      match units.find? fun u => u.primaryContract == contract with
      | some u =>
        Lookup.verifyMethod method u.methods (u.contracts.flatMap ContractRecord.internalFunctions)
      | none => .ok ()
    else .ok ()
  | _, _ => .ok ()

/-- Adds the units of one file to the model. -/
def buildFile (setting : BuildSetting) (prototypes : SortedMap String (List String)) (file : String)
    (index : Nat) : Build Unit := do
  let units ← Collect.units setting file file index false
  ofExcept (checkMethod setting.config file units)
  let found ←
    match Language.ofPath file with
    | .solidity => Finders.instrumented setting file index units
    | .vyper => pure (Finders.withoutFinders units)
  found.forM fun f => addUnit (prototypes.getD f.unit.primaryContract []) f

/-- Builds all files and sets the links. -/
def buildAll (config : Config) (compiler : Compiler) : Build Unit := do
  let finders ← ofExcept (config.functionFinders (← get).files)
  let prototypes ← ofExcept config.prototypes
  let setting : BuildSetting := ⟨config, compiler, finders⟩
  (Sorting.sort (fun f g => f ≤ g) config.files).zipIdx.forM fun (file, index) =>
    buildFile setting prototypes file index
  Links.applyAll setting

/-- Removes the files that only the build needed. -/
def cleanUp (s : BuildState) : BuildState :=
  { s with files := Copies.removeAll s.files (s.copies ++ s.outputs), copies := [], outputs := [] }

end Build

/-- Runs a build; what became of the files and the model is known also if it failed. -/
def Config.build (config : Config) (compiler : Compiler) (files : FileTree) :
    Except Error Unit × BuildState :=
  let (result, s) := (Build.buildAll config compiler).run.run (.start files)
  let cleaned := if config.debug then s else Build.cleanUp s
  match result with
  | .error e => (.error e, if e.isBrokenTree then s else cleaned)
  | .ok () =>
    if s.findersFailed && config.assertFinders then (.error (.generated .missingFinders), cleaned)
    else (.ok (), cleaned)

end ContractModel
