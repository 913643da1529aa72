import ContractModel.Build.Dependencies
import ContractModel.Build.Record

/-! # Collecting the units of a file

A file is compiled, its sources are copied for the report, and each of its configured contracts
becomes a unit with the contracts it depends on. An instrumented copy is compiled as the file it was
made from is configured.
-/

namespace ContractModel.Collect

/-- The last name of a path, or all of it if it has none. -/
def nameOf (path : String) : String := (Path.fileName? path).getD path

/-- Writes what the compiler answered into the configuration directory. -/
def saveOutput (setting : BuildSetting) (unitName : String) (output : CompilerOutput) :
    Build Unit := do
  let directory := setting.config.configDir
  let path := Path.append directory (unitName ++ ".standard.json")
  Build.onFiles .file fun files => files.createDirectories directory
  Build.onFiles .file fun files => files.write path (FileTree.textBytes output.json.indented)
  modify fun s => { s with outputs := s.outputs ++ [path] }

/-- Fails on errors of the compiler and on severe warnings. -/
def checkMessages (compiler : String) (isGenerated : Bool) (output : CompilerOutput) :
    Except Error Unit :=
  match output.firstError with
  | some d =>
    if isGenerated then .error (.generated (.rejected compiler d.text))
    else .error (.input (.rejectedSource compiler d.text))
  | none =>
    match output.severeWarnings.getLast? with
    | some d => .error (.input (.severeWarning d.text))
    | none => .ok ()

/-- The sources of a compilation by identifier, and their copies in the report. -/
structure SourceLists where
  sources : SortedMap Nat String
  report : SortedMap Nat String

/-- Copies the sources for the report. -/
def copySources (setting : BuildSetting) (unitName : String) (lang : Language)
    (output : CompilerOutput) : Build SourceLists := do
  let configDir := setting.config.configDir
  let directory := match lang with
    | .solidity => Path.append configDir unitName
    | .vyper => configDir
  Build.onFiles .file fun files => files.createDirectories directory
  output.allSources.entries.foldlM (fun lists (path, source) => do
    let copyName := Text.decimal source.id ++ "_" ++ nameOf path
    Build.onFiles (fun fault => .input (.sourceCopy path directory fault)) fun files =>
      files.copy path (Path.append directory copyName)
    return ⟨lists.sources.insert source.id path,
      lists.report.insert source.id (unitName ++ "/" ++ copyName)⟩) ⟨∅, ∅⟩

/-- The toolchain for a configured file. -/
def toolchain (setting : BuildSetting) (configFile : String) : Build Toolchain := do
  let lang := Language.ofPath configFile
  let executable := setting.config.compilerFor configFile lang
  let version ← Build.request setting (.version executable)
  return ⟨lang, executable, version, setting.config.optimizationFlags configFile⟩

/-- Compiles a file and adds its trees to the index. -/
def compile (setting : BuildSetting) (file configFile : String) (index : Nat)
    (isGenerated : Bool) : Build Compilation := do
  let unitName := nameOf file ++ "_" ++ Text.decimal index
  let tools ← toolchain setting configFile
  let settings ← Build.tool (setting.config.settings configFile tools.lang)
  let input ← Build.tool (CompilerInput.ofPath (← get).files tools.lang file settings)
  let output ← Build.request setting (.output tools.executable input setting.config.path)
  saveOutput setting unitName output
  ofExcept (checkMessages tools.compilerName isGenerated output)
  let syntaxIndex ← ofExcept ((← get).index.insert file output.allSources tools.lang)
  modify fun s => { s with index := syntaxIndex }
  return ⟨file, unitName, tools, output⟩

/-- Gives every contract of the files an address. -/
def assignAddresses (contracts : SortedMap String (List String)) (book : AddressBook) :
    AddressBook :=
  contracts.entries.foldl (fun book (file, names) =>
    names.foldl (fun book name => book.assign file name) book) book

/-- Takes the addresses linked so far, each where it first occurs. -/
def takeLibraries : Build (List String) := do
  let s ← get
  set { s with linkedLibraries := [] }
  return s.linkedLibraries.eraseDups

/-- The units of a file, one for each contract configured for it. -/
def units (setting : BuildSetting) (file configFile : String) (index : Nat)
    (isGenerated : Bool) : Build (List BuildUnit) := do
  let c ← compile setting file configFile index isGenerated
  let lang := c.toolchain.lang
  let lists ← copySources setting c.unitName lang c.output
  if file = configFile then modify fun s => { s with book := s.book.clear }
  let configured := setting.config.contractsOf configFile
  let current := (← get).files.current
  let contracts ← Build.query (Dependencies.collect current file lang c.output)
  modify fun s => { s with book := assignAddresses contracts s.book }
  match (c.output.allSources.get? file).bind fun source => lists.report.get? source.id with
  | none => throw (.inconsistency (.noSourceId file))
  | some reportFile =>
    let records ← (contracts.entries.flatMap fun (place, names) =>
        names.map fun name => (place, name)).mapM fun (place, name) =>
      Record.ofContract setting c reportFile (place == file && configured.contains name) place name
    let libraries ← takeLibraries
    configured.mapM fun contract => do
      let address ← Build.input ((← get).book.find setting.config.address file contract)
      return {
        primaryContract := contract
        address := address
        originFile := file
        sources := lists.sources
        reportSources := lists.report
        name := c.unitName
        contracts := records
        libraryAddresses := libraries
        generatedWith := setting.config.generatedWith
        state := ∅
        structLinks := ∅
        legacyStructLinks := ∅
        prototypes := []
        toolchain := c.toolchain }

end ContractModel.Collect
