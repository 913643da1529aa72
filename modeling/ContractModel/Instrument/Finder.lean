import ContractModel.Function.Basic
import ContractModel.Instrument.Error
import ContractModel.Toolchain

/-! # Function finders

The assembly that marks a function and logs its arguments in memory, under keys that no program
uses. It stands at the start of the body, or in a modifier of its own for a function that has
modifiers.
-/

namespace ContractModel.Finder

/-- The names that assembly reserves for its instructions. -/
def instructions : List String :=
  ["stop", "add", "sub", "mul", "div", "sdiv", "mod", "smod", "exp", "not", "lt", "gt", "slt",
   "sgt", "eq", "iszero", "and", "or", "xor", "byte", "shl", "shr", "sar", "addmod", "mulmod",
   "signextend", "keccak256", "pc", "pop", "mload", "mstore", "mstore8", "sload", "sstore",
   "msize", "gas", "address", "balance", "selfbalance", "caller", "callvalue", "calldataload",
   "calldatasize", "calldatacopy", "codesize", "codecopy", "extcodesize", "extcodecopy",
   "returndatasize", "returndatacopy", "extcodehash", "create", "create2", "call", "callcode",
   "delegatecall", "staticcall", "return", "revert", "selfdestruct", "invalid", "log0", "log1",
   "log2", "log3", "log4", "chainid", "basefee", "origin", "gasprice", "blockhash", "coinbase",
   "timestamp", "number", "difficulty", "gaslimit"]

def isInstruction (name : String) : Bool := instructions.contains name

def symbolBase : Nat := 0xf196e50000

/-- The number that marks a function. -/
def symbol (id : Nat) : Nat := symbolBase + id

/-- What every memory key begins with. -/
def keyBase : String := "0xffffff6e4604afefe123321beef1b01fffffffffffffffffffffffff"

/-- The memory key of a finder and a flag. -/
def key (id flag : Nat) : String :=
  keyBase ++ Text.hexadecimalPadded 4 id ++ Text.hexadecimalPadded 4 flag

/-- The flags of what is logged; the index of the argument is added. -/
def argumentFlag : Nat := 0x1000
def lengthFlag : Nat := 0x2000
def offsetFlag : Nat := 0x3000
def placeholderFlag : Nat := 0x4000
def unnamedFlag : Nat := 0x5000
def modifierArgumentFlag : Nat := 0x6000
def modifierOffsetFlag : Nat := 0x6100

/-- One instruction that stores a value under a key. -/
def store (id flag : Nat) (value : String) : String :=
  "mstore(" ++ key id flag ++ ", " ++ value ++ ") "

/-- The name of the copy of an argument that is named after an instruction. -/
def copyName (id index : Nat) : String :=
  "certoraRename" ++ Text.decimal id ++ "_" ++ Text.decimal index

/-- The name under which assembly can read an argument, and the declaration of it if it is a new
one. -/
def assemblyArgument (id index : Nat) (t : ParameterType) (name : String) :
    Except InstrumentError (String × Option String) :=
  if !isInstruction name then .ok (name, none)
  else
    match t.declaration with
    | none => .error (.undeclared name t.sourceSignature)
    | some declaration =>
      let copy := copyName id index
      .ok (copy, some (declaration ++ " " ++ copy ++ " = " ++ name ++ ";"))

/-- How many symbols the arguments take: a decomposed one has an offset and a length. -/
def symbolCount (arguments : List ParameterType) : Nat :=
  arguments.length + arguments.countP ParameterType.isDecomposed

/-- The start of a finder's assembly. -/
def opening (id : Nat) (arguments : List ParameterType) : String :=
  "assembly \x7b " ++ store id 0 (Text.decimal (symbol id)) ++
    store id 1 (Text.decimal (symbolCount arguments))

/-- Logs one argument under its name in assembly. -/
def logArgument (tools : Toolchain) (id index : Nat) (t : ParameterType) (name : String) : String :=
  if t.isDecomposed then
    if tools.hasCalldataAccessors name then
      store id (offsetFlag + index) (name ++ ".offset") ++
        store id (lengthFlag + index) (name ++ ".length")
    else store id (placeholderFlag + index) "0"
  else if name.isEmpty then store id (unnamedFlag + index) "0"
  else store id (argumentFlag + index) (tools.assemblyName t.isStorage name)

/-- The declarations of renamed arguments, and the stores of all arguments from an index on. -/
def logArguments (tools : Toolchain) (id : Nat) :
    Nat → List ParameterType → List String → Except InstrumentError (List String × String)
  | _, [], _ => .ok ([], "")
  | index, _ :: _, [] => .error (.missingName index)
  | index, t :: ts, name :: names => do
    let (name, declared) ← assemblyArgument id index t name
    let (renamings, stores) ← logArguments tools id (index + 1) ts names
    return (declared.toList ++ renamings, logArgument tools id index t name ++ stores)

def joinRenamings (renamings : List String) : String := String.intercalate " " renamings

/-- The finder at the start of a function's body. -/
def inBody (f : ContractFunction) (id : Nat) (tools : Toolchain) :
    Except InstrumentError String := do
  let (renamings, stores) ← logArguments tools id 0 f.arguments f.parameterNames
  return joinRenamings renamings ++ opening id f.arguments ++ stores ++ "\x7d"

/-- The positions of decomposed arguments, as a number: `1110` for each of them and `01` for each
other argument, the first argument highest. -/
def typeLayout (arguments : List ParameterType) : Nat :=
  arguments.foldl (fun n t => if t.isDecomposed then n * 16 + 14 else n * 4 + 1) 0

structure ModifierFinder where
  invocation : String
  definition : String
  deriving DecidableEq, Repr

/-- Whether a modifier can log an argument. -/
def isLoggable (tools : Toolchain) (argument : ParameterType × String) : Bool :=
  !argument.2.isEmpty && (!argument.1.isDecomposed || tools.hasCalldataAccessors argument.2)

/-- The last argument that a modifier can log, and its index. -/
def lastLoggable (tools : Toolchain) (f : ContractFunction) :
    Option ((ParameterType × String) × Nat) :=
  ((f.arguments.zip f.parameterNames).zipIdx.filter fun a => isLoggable tools a.1).getLast?

/-- The modifier that logs the last loggable argument, and its invocation. -/
def asModifier (f : ContractFunction) (id : Nat) (tools : Toolchain) :
    Except InstrumentError ModifierFinder := do
  let name := "logInternal" ++ Text.decimal id
  let layout := Text.decimal (typeLayout f.arguments)
  let ending := "\x7d _; \x7d"
  match lastLoggable tools f with
  | none =>
    return ⟨name ++ "()", "modifier " ++ name ++ "() \x7b" ++ opening id f.arguments ++
      store id 2 layout ++ ending⟩
  | some ((t, argument), index) =>
    let (renamed, declared) ← assemblyArgument id index t argument
    let before := symbolCount (f.arguments.take index)
    let logged :=
      if t.isDecomposed then store id (modifierOffsetFlag + before) (renamed ++ ".offset")
      else store id (modifierArgumentFlag + before) (tools.assemblyName t.isStorage renamed)
    return ⟨name ++ "(" ++ argument ++ ")",
      "modifier " ++ name ++ "(" ++ t.declaration.getD t.base ++ " " ++ argument ++ ") \x7b " ++
        joinRenamings declared.toList ++ opening id f.arguments ++ store id 3 layout ++ logged ++
        ending⟩

end ContractModel.Finder
