import ContractModel.SortedMap
import ContractModel.Text.Number
import ContractModel.Text.Search

/-! # Command line arguments

Options have a long name, and a few a short one. An option that may be repeated takes all words up
to the next option; behind a double dash every word is an input file.
-/

namespace ContractModel.CommandLine

/-- How many values an option takes, and whether it may be repeated. -/
inductive Arity where
  | flag
  | one
  | many
  deriving DecidableEq, Repr

inductive ArgumentFault where
  | unknown (option : String)
  | noValue (option : String)
  | repeated (option : String)
  | notANumber (option value : String) (fault : Text.IntegerFault)
  deriving DecidableEq, Repr

def ArgumentFault.message : ArgumentFault → String
  | unknown option => "error: Found argument '" ++ option ++ "' which wasn't expected"
  | noValue option => "error: The argument '--" ++ option ++ "' requires a value"
  | repeated option => "error: The argument '--" ++ option ++ "' cannot be used multiple times"
  | notANumber option value fault =>
    "error: Invalid value '" ++ value ++ "' for '--" ++ option ++ "': " ++ fault.message

/-- Why arguments lead to no build. -/
inductive Stop where
  | help
  | version
  | fault (f : ArgumentFault)
  deriving DecidableEq, Repr

/-- The options by long name. -/
def options : List (String × Arity) :=
  [("config", .one), ("solc", .one), ("solc-args", .one), ("packages", .many), ("path", .many),
   ("link", .many), ("struct-link", .many), ("prototype", .many), ("method", .one),
   ("verify", .one), ("assert", .many), ("via-ir", .flag), ("evm-version", .one),
   ("optimize", .one), ("assert-autofinder-success", .flag), ("config-dir", .one),
   ("output", .one), ("debug", .flag)]

/-- How often an option was given, and all of its values. -/
structure Given where
  count : Nat
  values : List String
  deriving DecidableEq, Repr

/-- What was read of the arguments, and where the next word goes. -/
structure Reading where
  given : SortedMap String Given
  files : List String
  /-- The option that the next word may be a value of. -/
  waiting : Option String
  /-- Whether a double dash was read. -/
  onlyFiles : Bool

namespace Reading

def start : Reading := ⟨∅, [], none, false⟩

def addFile (r : Reading) (path : String) : Reading := { r with files := r.files ++ [path] }

def addOccurrence (r : Reading) (option : String) : Reading :=
  let g := r.given.getD option ⟨0, []⟩
  { r with given := r.given.insert option { g with count := g.count + 1 } }

def addValue (r : Reading) (option value : String) : Reading :=
  let g := r.given.getD option ⟨0, []⟩
  { r with given := r.given.insert option { g with values := g.values ++ [value] } }

/-- An option that takes values, with one behind an equals sign or not. -/
def takeOption (r : Reading) (option : String) (value? : Option (List Char)) : Reading :=
  let r := r.addOccurrence option
  match value? with
  | none => { r with waiting := some option }
  | some value =>
    { r.addValue option (String.ofList (value.dropWhile (· = '='))) with waiting := none }

/-- A long option; all dashes in front of the name are dropped. -/
def takeLong (r : Reading) (word : List Char) : Except Stop Reading :=
  let text := word.dropWhile (· = '-')
  let name := String.ofList (text.takeWhile (· ≠ '='))
  let value? := (text.dropWhile (· ≠ '=')).tail?
  match options.lookup name with
  | some .flag => .ok { r.addOccurrence name with waiting := none }
  | some _ => .ok (r.takeOption name value?)
  | none =>
    if name = "help" then .error .help
    else if name = "version" then .error .version
    else .error (.fault (.unknown (String.ofList word)))

/-- Short options; what stands behind the name of one with a value is the value. -/
def takeShort (r : Reading) (word : List Char) : Except Stop Reading :=
  match word.dropWhile (· = '-') with
  | 'o' :: rest => .ok (r.takeOption "output" (if rest.isEmpty then none else some rest))
  | 'h' :: _ => .error .help
  | 'V' :: _ => .error .version
  | _ => .error (.fault (.unknown (String.ofList word)))

def arityOf (option : String) : Arity := (options.lookup option).getD .flag

/-- A word that is no option. -/
def takeWord (r : Reading) (word : String) : Reading :=
  match r.waiting with
  | none => r.addFile word
  | some option =>
    { r.addValue option word with waiting := if arityOf option = .many then some option else none }

def step (r : Reading) (word : String) : Except Stop Reading :=
  if r.onlyFiles then .ok (r.addFile word)
  else
    match word.toList with
    | ['-'] => .ok (r.takeWord word)
    | ['-', '-'] => .ok { r with onlyFiles := true }
    | '-' :: '-' :: _ => r.takeLong word.toList
    | '-' :: _ => r.takeShort word.toList
    | _ => .ok (r.takeWord word)

/-- Every option that takes values needs one, and only some may be repeated. -/
def check (r : Reading) : Except ArgumentFault Unit :=
  r.given.entries.forM fun (option, g) =>
    match arityOf option with
    | .many => if g.values.isEmpty then throw (.noValue option) else pure ()
    | .one =>
      if g.values.isEmpty then throw (.noValue option)
      else if g.count > 1 then throw (.repeated option)
      else pure ()
    | .flag => if g.count > 1 then throw (.repeated option) else pure ()

def valuesOf (r : Reading) (option : String) : List String :=
  (r.given.getD option ⟨0, []⟩).values

def valueOf? (r : Reading) (option : String) : Option String := (r.valuesOf option).head?

def isGiven (r : Reading) (option : String) : Bool := r.given.contains option

def number? (r : Reading) (option : String) : Except ArgumentFault (Option Nat) :=
  match r.valueOf? option with
  | none => .ok none
  | some value =>
    match Text.readWord value with
    | .ok n => .ok (some n)
    | .error fault => .error (.notANumber option value fault)

end Reading

structure Arguments where
  files : List String
  config : Option String
  compiler : Option String
  compilerArguments : Option String
  packages : List String
  path : List String
  link : List String
  structLink : List String
  prototype : List String
  method : Option String
  verify : Option String
  assertContracts : List String
  viaIR : Bool
  evmVersion : Option String
  optimize : Option Nat
  assertFinders : Bool
  configDir : Option String
  output : Option String
  debug : Bool
  deriving DecidableEq, Repr

namespace Arguments

def ofReading (r : Reading) : Except ArgumentFault Arguments := do
  r.check
  return {
    files := r.files
    config := r.valueOf? "config"
    compiler := r.valueOf? "solc"
    compilerArguments := r.valueOf? "solc-args"
    packages := r.valuesOf "packages"
    path := r.valuesOf "path"
    link := r.valuesOf "link"
    structLink := r.valuesOf "struct-link"
    prototype := r.valuesOf "prototype"
    method := r.valueOf? "method"
    verify := r.valueOf? "verify"
    assertContracts := r.valuesOf "assert"
    viaIR := r.isGiven "via-ir"
    evmVersion := r.valueOf? "evm-version"
    optimize := ← r.number? "optimize"
    assertFinders := r.isGiven "assert-autofinder-success"
    configDir := r.valueOf? "config-dir"
    output := r.valueOf? "output"
    debug := r.isGiven "debug" }

/-- Reads the words behind the name of the program. -/
def read (words : List String) : Except Stop Arguments := do
  let r ← words.foldlM Reading.step .start
  match ofReading r with
  | .ok a => return a
  | .error f => throw (.fault f)

end Arguments

end ContractModel.CommandLine
