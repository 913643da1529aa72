import ContractModel.Build.Run
import ContractModel.CommandLine.Arguments
import ContractModel.Compilation.Program

/-! # The command line

The arguments add to a configuration or replace parts of it. The model is written where they say, or
else into the configuration directory.
-/

namespace ContractModel

/-- Writes the model as indented JSON. -/
def BuildModel.write (m : BuildModel) (files : FileTree) (path : String) :
    Except ToolFault FileTree :=
  match files.write path (FileTree.textBytes m.json.indented) with
  | .ok files => .ok files
  | .error fault => .error (.modelCreating path fault)

namespace CommandLine

def modelName : String := ".certora_build.json"

/-- What came of a command line. -/
structure Outcome where
  code : Nat
  stdout : String
  stderr : String
  files : FileTree
  requests : List CompilerRequest

namespace Arguments

def validate (a : Arguments) : Except ToolFault Unit :=
  if a.files.isEmpty && a.config.isNone then .error .missingFiles
  else if a.verify.isSome && !a.assertContracts.isEmpty then .error .verifyAndAssert
  else .ok ()

/-- Adds an input file by its canonical path, unless it is there. -/
def addFile (files : FileTree) (c : Config) (path : String) : Except ToolFault Config :=
  match files.canonical path with
  | .error fault => .error (.inputPath fault)
  | .ok path => .ok (if c.files.contains path then c else { c with files := c.files ++ [path] })

/-- The configuration with what the arguments say. -/
def configure (a : Arguments) (c : Config) : Config :=
  { c with
    compiler := a.compiler.or c.compiler
    compilerArguments := a.compilerArguments.or c.compilerArguments
    packages := c.packages ++ a.packages
    path := c.path ++ a.path
    link := c.link ++ a.link
    structLink := c.structLink ++ a.structLink
    prototype := c.prototype ++ a.prototype
    assertContracts := c.assertContracts ++ a.assertContracts
    method := a.method.or c.method
    verify := a.verify.or c.verify
    evmVersion := a.evmVersion.or c.evmVersion
    optimize := a.optimize.or c.optimize
    configDir := a.configDir.getD c.configDir
    viaIR := c.viaIR || a.viaIR
    debug := c.debug || a.debug
    assertFinders := c.assertFinders || a.assertFinders }

/-- The configuration to build. -/
def configuration (a : Arguments) (files : FileTree) : Except ToolFault Config := do
  a.validate
  let c ← match a.config with
    | some path => Config.ofFile files path
    | none => pure {}
  return a.configure (← a.files.foldlM (addFile files) c)

end Arguments

/-- Builds as the arguments say and writes the model. -/
def build (compiler : Compiler) (files : FileTree) (a : Arguments) : Outcome :=
  match a.configuration files with
  | .error fault => ⟨1, "", fault.message, files, []⟩
  | .ok config =>
    let (result, s) := config.build compiler files
    match result with
    | .error e => ⟨if e.isBrokenTree then 101 else 1, "", e.message, s.files, s.requests⟩
    | .ok () =>
      match s.model.write s.files (a.output.getD (Path.append config.configDir modelName)) with
      | .error fault => ⟨1, "", fault.message, s.files, s.requests⟩
      | .ok files => ⟨0, "", "", files, s.requests⟩

def programName : String := "verifier-build"

def programVersion : String := "1.1.0"

/-- What the program is and what its options are. -/
def helpText : String :=
  let line (o : String × Arity) : String :=
    "    --" ++ o.1 ++ (match o.2 with
      | .flag => ""
      | .one => " <" ++ o.1 ++ ">"
      | .many => " <" ++ o.1 ++ ">...") ++ "\n"
  programName ++ " " ++ programVersion ++
    "\nThe smart contract build pipeline for the verifier\n\nUSAGE:\n    " ++ programName ++
    " [OPTIONS] [input-files]...\n\nOPTIONS:\n" ++ String.join (options.map line)

/-- Runs the program on the words behind its name. -/
def run (compiler : Compiler) (files : FileTree) (words : List String) : Outcome :=
  match Arguments.read words with
  | .error .help => ⟨0, helpText, "", files, []⟩
  | .error .version => ⟨0, programName ++ " " ++ programVersion ++ "\n", "", files, []⟩
  | .error (.fault f) => ⟨1, "", f.message, files, []⟩
  | .ok a => build compiler files a

end CommandLine

end ContractModel
