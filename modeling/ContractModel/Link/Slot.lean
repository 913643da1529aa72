import ContractModel.Error
import ContractModel.Json.Printer
import ContractModel.SortedMap
import ContractModel.Text.Blank
import ContractModel.Text.Search

/-! # Storage slots

The slot of a state variable, from the storage layout or from the assembly listing of a contract, as
a hexadecimal number without leading zeros.
-/

namespace ContractModel.Slot

/-- The digits behind `0x` or `0X`. -/
def hexDigits? (s : String) : Option (List Char) :=
  match s.toList with
  | '0' :: 'x' :: ds | '0' :: 'X' :: ds => some ds
  | _ => none

def isHex (s : String) : Bool :=
  match hexDigits? s with
  | some ds => !ds.isEmpty && ds.all fun c => (Text.digitValue 16 c).isSome
  | none => false

def isDecimal (s : String) : Bool :=
  !s.isEmpty && s.toList.all fun c => (Text.digitValue 10 c).isSome

/-- The hexadecimal form of a decimal number. -/
def decimalToHex (s : String) : Option String :=
  (Text.readUnbounded 10 s).map Text.hexadecimal

/-- The hexadecimal form of a number in decimal, or in hexadecimal behind `0x`. -/
def normalize (s : String) : Option String :=
  if isHex s then (Text.readUnbounded 16 (String.ofList (s.toList.drop 2))).map Text.hexadecimal
  else if isDecimal s then decimalToHex s
  else none

/-- The slot of a layout entry, as text or number. -/
def entrySlot (entry : Json) : Option String :=
  match entry.get? "slot" with
  | some (.string s) => some s
  | some (.number n) => some (String.ofList n.chars)
  | _ => none

/-- The slot of a variable in a storage layout; there is none if the layout lists no storage. -/
def ofLayout (contract name : String) (layout : Json) : Except Error (Option String) :=
  match (layout.get? "storage").bind Json.asArray? with
  | none => .ok none
  | some storage =>
    let entries := storage.filter fun e => (e.get? "label").bind Json.asString? == some name
    match SortedMap.distinct (entries.filterMap entrySlot) with
    | [] => .error (.input (.noVariable name contract))
    | [slot] =>
      match decimalToHex slot with
      | some hex => .ok (some hex)
      | none => .error (.inconsistency (.layoutSlot slot name contract))
    | slots => .error (.inconsistency (.severalLayoutSlots name contract slots))

/-- Whether the end of a source comment with the name follows, behind blanks and a space. -/
def commentEnds (name : List Char) : List Char → Bool
  | [] => false
  | c :: cs =>
    (c = ' ' && (name ++ [' ', '*', '/']).isPrefixOf cs) ||
      (Text.isBlank c && commentEnds name cs)

def isFileChar (c : Char) : Bool :=
  c.isAlphanum || c = '.' || c = '/' || c = '_' || c = '-' || c = ':'

/-- At least one character of a class, and what follows them. -/
def skipSome (p : Char → Bool) (cs : List Char) : Option (List Char) :=
  match cs with
  | c :: _ => if p c then some (cs.dropWhile p) else none
  | [] => none

/-- Whether a source comment that names the variable begins here. -/
def commentHere (name : List Char) (cs : List Char) : Bool :=
  let found : Option Bool := do
    let cs ← List.isPrefixOf? "/* \"".toList cs
    let cs ← skipSome isFileChar cs
    let cs ← List.isPrefixOf? "\":".toList cs
    let cs ← skipSome Char.isDigit cs
    let cs ← List.isPrefixOf? [':'] cs
    let cs ← skipSome Char.isDigit cs
    return commentEnds name cs
  found.getD false

def hasComment (name : List Char) : List Char → Bool
  | [] => false
  | c :: cs => commentHere name (c :: cs) || hasComment name cs

/-- The trimmed lines that follow a line with a comment on the variable. -/
def linesBehind (name : List Char) : List String → List String
  | line :: next :: rest =>
    let more := linesBehind name (next :: rest)
    if hasComment name line.toList then Text.trim next :: more else more
  | _ => []

/-- The slot of a variable in an assembly listing. -/
def ofAssembly (contract name : String) (assembly : String) : Except Error String :=
  let lines := linesBehind name.toList (Text.lines assembly)
  match SortedMap.distinct (lines.filter fun line => (hexDigits? line).isSome) with
  | [] => .error (.input (.noVariableInAssembly name contract))
  | [candidate] =>
    match normalize candidate with
    | some slot => .ok slot
    | none => .error (.inconsistency (.assemblySlot candidate name contract))
  | candidates => .error (.inconsistency (.severalAssemblySlots name contract candidates))

end ContractModel.Slot
