import ContractModel.Compilation.Compiler
import ContractModel.Json.Parser
import ContractModel.Text.Blank
import ContractModel.Text.Digit
import ContractModel.Text.Utf8

/-! # Compilers that are programs

A compiler request as a run of an executable, and what the answer is read from: the text it prints
and its exit code.
-/

namespace ContractModel

/-- A run of an executable with arguments and standard input. -/
structure Invocation where
  executable : String
  arguments : List String
  input : String
  deriving DecidableEq, Repr

/-- What a run leaves behind. -/
structure RunResult where
  code : Nat
  stdout : Bytes
  stderr : Bytes
  deriving DecidableEq, Repr

/-- The installed programs. What a run does may depend on the runs before; an executable that cannot
be started gives nothing. -/
structure Programs where
  run : FileTree → List Invocation → Invocation → Option RunResult

namespace Invocation

/-- The size in bytes that an argument cannot exceed. -/
def maxArgumentSize : Nat := 131071

/-- Whether the words can be handed to a program. -/
def isPassable (i : Invocation) : Bool :=
  (i.executable :: i.arguments).all fun word =>
    !word.toList.contains '\x00' && word.utf8ByteSize ≤ maxArgumentSize

/-- Whether the run can be started, where the installed executables are given by their absolute
paths. An executable has to be named by a path. -/
def starts (installed : List String) (files : FileTree) (i : Invocation) : Bool :=
  i.isPassable && i.executable.toList.contains '/' &&
    match files.canonical i.executable with
    | .ok path => installed.contains path
    | .error _ => false

end Invocation

/-- Programs whose runs have recorded results, in order; a run behind the last one fails. Runs that
cannot be started take no result. -/
def Programs.recorded (starts : FileTree → Invocation → Bool) (results : List RunResult) :
    Programs where
  run files earlier i :=
    if starts files i then
      let index := (earlier.filter (starts files)).length
      some (results.getD index ⟨99, [], []⟩)
    else none

namespace CompilerRequest

def allowedPathsArguments (allowedPaths : List String) : List String :=
  if allowedPaths.isEmpty then [] else ["--allow-paths", String.intercalate "," allowedPaths]

/-- The run that a request asks for. -/
def invocation : CompilerRequest → Invocation
  | version executable => ⟨executable, ["--version"], ""⟩
  | output executable input allowedPaths =>
    ⟨executable, "--standard-json" :: allowedPathsArguments allowedPaths, input.json.compact⟩
  | assembly executable path arguments allowedPaths =>
    ⟨executable, arguments ++ "--asm" :: allowedPathsArguments allowedPaths ++ [path], ""⟩

end CompilerRequest

namespace Version

/-- Digits at the start, at least one, and what follows them. -/
def takeNumber (cs : List Char) : Option (List Char × List Char) :=
  let digits := cs.takeWhile Text.isDecimalDigit
  if digits.isEmpty then none else some (digits, cs.dropWhile Text.isDecimalDigit)

def takeDot (cs : List Char) : Option (List Char) :=
  match cs with
  | '.' :: cs => some cs
  | _ => none

/-- The digits of the three numbers of a version at the start. -/
def partsHere (cs : List Char) : Option (List (List Char)) := do
  let (major, cs) ← takeNumber cs
  let (minor, cs) ← takeNumber (← takeDot cs)
  let (patch, _) ← takeNumber (← takeDot cs)
  return [major, minor, patch]

/-- The parts of the first version in a text. -/
def findParts : List Char → Option (List (List Char))
  | [] => none
  | c :: cs => (partsHere (c :: cs)).or (findParts cs)

/-- The first version in a text; its numbers have to be 64-bit numbers in ASCII digits. -/
def find (text : String) : Except ToolFault Version :=
  match findParts text.toList with
  | none => .error (.noVersion (Text.trim text))
  | some parts =>
    match parts.mapM fun ds => Text.readWord (String.ofList ds) with
    | .ok [major, minor, patch] => .ok ⟨major, minor, patch⟩
    | .ok _ => .error (.noVersion (Text.trim text))
    | .error fault => .error (.versionPart fault)

end Version

namespace RunResult

def succeeded (r : RunResult) : Bool := r.code == 0
def outputText (r : RunResult) : String := Text.decodeLossy r.stdout
def errorText (r : RunResult) : String := Text.decodeLossy r.stderr

/-- The compiler output that a run printed. -/
def compilerOutput? (r : RunResult) : Option CompilerOutput := do
  CompilerOutput.read (← Json.Written.parse (← FileTree.bytesText? r.stdout))

end RunResult

namespace Compiler

/-- The answer to a request, read from the run it asked for. -/
def ofRun (r : CompilerRequest) (result : Option RunResult) : Except ToolFault r.Answer :=
  match r, result with
  | .version executable, none => .error (.notStarted executable)
  | .version executable, some result =>
    if result.succeeded then Version.find result.outputText
    else .error (.versionFailed executable result.errorText)
  | .output executable _ _, none => .error (.notSpawned executable)
  | .output executable _ _, some result =>
    if result.succeeded then
      match result.compilerOutput? with
      | some output => .ok output
      | none => .error (.unreadableOutput executable)
    else .error (.runFailed executable result.errorText)
  | .assembly executable _ _ _, none => .error (.notStarted executable)
  | .assembly executable _ _ _, some result =>
    if result.succeeded then .ok result.outputText
    else .error (.runFailed executable result.errorText)

/-- The compiler that runs programs. -/
def ofPrograms (programs : Programs) : Compiler where
  answer files earlier r :=
    ofRun r (programs.run files (earlier.map CompilerRequest.invocation) r.invocation)

end Compiler

end ContractModel
