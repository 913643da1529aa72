import ContractModel.Compilation.Bytecode
import ContractModel.Error

/-! # Linking bytecode

Each library's places in a bytecode are filled with its address, from the back. A push of twenty
bytes in front of a place becomes the marker of a linked library.
-/

namespace ContractModel.Linking

/-- The instruction that pushes twenty bytes. -/
def push20 : List Char := ['7', '3']

/-- What stands for the push in front of a library's address. -/
def linkMarker : List Char := ['5', 'c']

structure Linked where
  bytecode : String
  libraryAddresses : List String
  deriving DecidableEq, Repr

/-- Why a bytecode cannot be linked: a library has no address, or a place lies outside. -/
inductive Fault (ε : Type) where
  | unresolved (error : ε)
  | outOfBounds (start length : Nat)
  deriving Repr

/-- What goes to one place. -/
structure Replacement where
  length : Nat
  address : String
  deriving DecidableEq, Repr

variable {ε : Type}

/-- Cuts behind a number of bytes, if that is the end of a character. -/
def cutAt : Nat → List Char → Option (List Char × List Char)
  | 0, cs => some ([], cs)
  | _, [] => none
  | n, c :: cs =>
    if c.utf8Size ≤ n then (cutAt (n - c.utf8Size) cs).map fun (front, rest) => (c :: front, rest)
    else none

/-- All places with the file and the library that each is for. -/
def places (references : LinkReferences) : List (String × String × ByteRange) :=
  references.entries.flatMap fun (file, libraries) =>
    libraries.entries.flatMap fun (library, ranges) =>
      ranges.map fun range => (file, library, range)

/-- The replacements by place; of two for one place the last counts. -/
def replacements (resolve : String → String → Except ε String) (references : LinkReferences) :
    Except (Fault ε) (SortedMap Nat Replacement) :=
  (places references).foldlM (fun m (file, library, range) =>
    match resolve file library with
    | .ok address => .ok (m.insert range.start ⟨range.length, address⟩)
    | .error e => .error (.unresolved e)) ∅

/-- The text in front of a place, with a push at its end marked. -/
def markPush (front : List Char) : List Char :=
  match List.isSuffixOf? push20 front with
  | some before => before ++ linkMarker
  | none => front

/-- Fills one place; two digits are a byte. -/
def fill (code : List Char) (start : Nat) (r : Replacement) : Except (Fault ε) (List Char) :=
  match cutAt (2 * start) code with
  | none => .error (.outOfBounds start r.length)
  | some (front, rest) =>
    match cutAt (2 * r.length) rest with
    | none => .error (.outOfBounds start r.length)
    | some (_, behind) => .ok (markPush front ++ r.address.toList ++ behind)

/-- Fills places in the given order. -/
def fillAll : List Char → List (Nat × Replacement) → Except (Fault ε) (List Char)
  | code, [] => .ok code
  | code, (start, r) :: rest => do fillAll (← fill code start r) rest

def link (resolve : String → String → Except ε String) (bytecode : String)
    (references : LinkReferences) : Except (Fault ε) Linked := do
  let order := (← replacements resolve references).entries.reverse
  let code ← fillAll bytecode.toList order
  return ⟨String.ofList code, order.map fun r => r.2.address⟩

end ContractModel.Linking
