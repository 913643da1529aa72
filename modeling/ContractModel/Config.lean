import ContractModel.Compilation.Settings
import ContractModel.FileTree
import ContractModel.Json.Parser
import ContractModel.Json.Printer
import ContractModel.Link.Directive

/-! # Build configurations

What a build is made of: the files and their contracts, the compilers and their settings, and what
links, prototypes and finders the user gives.
-/

namespace ContractModel

structure Config where
  files : List String := []
  fileToContract : SortedMap String (List String) := ∅
  contractToFile : SortedMap String String := ∅
  compiler : Option String := none
  compilerMap : SortedMap String String := ∅
  compilerArguments : Option String := none
  optimizeMap : SortedMap String Nat := ∅
  packages : List String := []
  path : List String := []
  link : List String := []
  structLink : List String := []
  address : SortedMap String String := ∅
  finders : Option String := none
  prototype : List String := []
  method : Option String := none
  verify : Option String := none
  assertContracts : List String := []
  viaIR : Bool := false
  evmVersion : Option String := none
  optimize : Option Nat := none
  debug : Bool := false
  assertFinders : Bool := false
  configDir : String := ".certora_config"

namespace Config

open Json Json.Schema in
def read (w : Written) : Option Config := do
  let ms ← record
    ["files", "fileToContract", "contractToFile", "solc", "solcMap", "solcArgs", "optimizeMap",
     "packages", "path", "link", "structLink", "address", "functionFinders", "prototype",
     "method", "verify", "assertContracts", "viaIr", "evmVersion", "optimize", "debug",
     "assertAutofinderSuccess", "configDir"] w
  let d : Config := {}
  return {
    files := ← defaulted "files" (list Written.asString?) d.files ms
    fileToContract :=
      ← defaulted "fileToContract" (map (list Written.asString?)) d.fileToContract ms
    contractToFile := ← defaulted "contractToFile" (map Written.asString?) d.contractToFile ms
    compiler := ← optional "solc" Written.asString? ms
    compilerMap := ← defaulted "solcMap" (map Written.asString?) d.compilerMap ms
    compilerArguments := ← optional "solcArgs" Written.asString? ms
    optimizeMap := ← defaulted "optimizeMap" (map Written.asWord?) d.optimizeMap ms
    packages := ← defaulted "packages" (list Written.asString?) d.packages ms
    path := ← defaulted "path" (list Written.asString?) d.path ms
    link := ← defaulted "link" (list Written.asString?) d.link ms
    structLink := ← defaulted "structLink" (list Written.asString?) d.structLink ms
    address := ← defaulted "address" (map Written.asString?) d.address ms
    finders := ← optional "functionFinders" Written.asString? ms
    prototype := ← defaulted "prototype" (list Written.asString?) d.prototype ms
    method := ← optional "method" Written.asString? ms
    verify := ← optional "verify" Written.asString? ms
    assertContracts := ← defaulted "assertContracts" (list Written.asString?) d.assertContracts ms
    viaIR := ← defaulted "viaIr" Written.asBool? d.viaIR ms
    evmVersion := ← optional "evmVersion" Written.asString? ms
    optimize := ← optional "optimize" Written.asWord? ms
    debug := ← defaulted "debug" Written.asBool? d.debug ms
    assertFinders := ← defaulted "assertAutofinderSuccess" Written.asBool? d.assertFinders ms
    configDir := ← defaulted "configDir" Written.asString? d.configDir ms }

def json (c : Config) : Json :=
  .object [("files", Json.ofStrings c.files),
    ("fileToContract", Json.ofMap Json.ofStrings c.fileToContract),
    ("contractToFile", Json.ofMap .string c.contractToFile),
    ("solc", .ofOption .string c.compiler), ("solcMap", Json.ofMap .string c.compilerMap),
    ("solcArgs", .ofOption .string c.compilerArguments),
    ("optimizeMap", Json.ofMap .ofNat c.optimizeMap), ("packages", Json.ofStrings c.packages),
    ("path", Json.ofStrings c.path), ("link", Json.ofStrings c.link),
    ("structLink", Json.ofStrings c.structLink), ("address", Json.ofMap .string c.address),
    ("functionFinders", .ofOption .string c.finders),
    ("prototype", Json.ofStrings c.prototype), ("method", .ofOption .string c.method),
    ("verify", .ofOption .string c.verify), ("assertContracts", Json.ofStrings c.assertContracts),
    ("viaIr", .bool c.viaIR), ("evmVersion", .ofOption .string c.evmVersion),
    ("optimize", .ofOption .ofNat c.optimize), ("debug", .bool c.debug),
    ("assertAutofinderSuccess", .bool c.assertFinders), ("configDir", .string c.configDir)]

/-- The configuration as the model keeps it. -/
def generatedWith (c : Config) : String := c.json.compact

def ofFile (files : FileTree) (path : String) : Except ToolFault Config :=
  match files.readText path with
  | .error fault => .error (.configReading path fault)
  | .ok text =>
    match (Json.Written.parse text).bind read with
    | none => .error (.configParsing path)
    | some c => .ok c

/-- The contracts built from a file: those listed for it, or the one named like it. -/
def contractsOf (c : Config) (file : String) : List String :=
  match c.fileToContract.get? file with
  | some (name :: names) => name :: names
  | _ => (Path.stem? file).toList

/-- The compiler set for the file, for the first of its contracts that has one, or for all. -/
def compilerFor (c : Config) (file : String) (lang : Language) : String :=
  ((c.compilerMap.get? file).or
    ((c.contractsOf file).findSome? fun name => c.compilerMap.get? name)).getD
    (match lang, c.compiler with
      | .solidity, some executable => executable
      | lang, _ => lang.defaultExecutable)

def extraArguments (c : Config) : Except ToolFault (List String) :=
  match c.compilerArguments with
  | none => .ok []
  | some text =>
    match Text.Words.split text with
    | some words => .ok words
    | none => .error (.arguments text)

def remappings (c : Config) : List String := c.packages

/-- The optimizer runs set for the first of the file's contracts that has some, or for all. -/
def optimizeRuns (c : Config) (file : String) : Option Nat :=
  ((c.contractsOf file).findSome? fun name => c.optimizeMap.get? name).or c.optimize

/-- What the configuration says itself stands above the compiler arguments. -/
def settings (c : Config) (file : String) (lang : Language) : Except ToolFault Settings := do
  let s ← Settings.ofArguments lang c.remappings (← c.extraArguments)
  return { s with
    optimizer := ((c.optimizeRuns file).map fun runs => Optimizer.withRuns (some runs)).or
      s.optimizer
    evmVersion := c.evmVersion.or s.evmVersion
    viaIR := if c.viaIR then some true else s.viaIR }

/-- The flags that describe the optimization of a file. -/
def optimizationFlags (c : Config) (file : String) : String :=
  let optimizer :=
    match c.optimizeRuns file with
    | some runs => ["--optimize --optimize-runs " ++ Text.decimal runs]
    | none => c.compilerArguments.toList
  String.intercalate " " (optimizer ++ if c.viaIR then ["--via-ir"] else [])

def links (c : Config) : Except Error (List LinkDirective) := c.link.mapM LinkDirective.parse

def structLinks (c : Config) : Except Error (List LinkDirective) :=
  c.structLink.mapM LinkDirective.parse

/-- The signatures that each contract is a prototype for; the contract stands behind the last equals
sign. -/
def prototypes (c : Config) : Except Error (SortedMap String (List String)) :=
  c.prototype.foldlM (fun m text =>
    match Text.splitLast '=' text with
    | none => .error (.input (.prototypeForm text))
    | some (signature, contract) =>
      let contract := Text.trim contract
      .ok (m.insert contract (m.getD contract [] ++ [Text.trim signature]))) ∅

/-- The contract to be verified, in front of the first colon, or else the first with assertions. -/
def verifiedContract (c : Config) : Option String :=
  match c.verify with
  | some text => some ((Text.splitOnce ":" text).elim text Prod.fst)
  | none => c.assertContracts.head?

/-- The finders that the user gives, by contract and symbol. -/
def functionFinders (c : Config) (files : FileTree) :
    Except Error (SortedMap String (SortedMap String Json)) :=
  match c.finders with
  | none => .ok ∅
  | some path =>
    match files.readText path with
    | .error fault => .error (.input (.findersFile path fault))
    | .ok text =>
      match (Json.Written.parse text).bind (Json.Schema.map (Json.Schema.map Json.Schema.any)) with
      | none => .error .json
      | some finders => .ok finders

end Config

end ContractModel
