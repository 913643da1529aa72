import ContractModel.Text.Number
import ContractModel.Text.Search

/-! # Source ranges

The part of a source that a tree node covers, written `start:length` with an optional file index.
-/

namespace ContractModel

structure SourceRange where
  start : Nat
  length : Nat
  fileIndex : Option Int
  deriving DecidableEq, Repr

namespace SourceRange

inductive Fault where
  | missing (text part : String)
  | invalid (text part : String) (fault : Text.IntegerFault)
  deriving DecidableEq, Repr

def Fault.message : Fault → String
  | missing text part => "Source range `" ++ text ++ "` has no " ++ part
  | invalid text part fault =>
    "Source range `" ++ text ++ "` " ++ part ++ " is invalid: " ++ fault.message

/-- One of the two numbers of a range. -/
def readPart (text part : String) : Option String → Except Fault Nat
  | none => .error (.missing text part)
  | some s =>
    match Text.readWord s with
    | .ok n => .ok n
    | .error fault => .error (.invalid text part fault)

/-- A file index that is no number counts as absent. -/
def parse (text : String) : Except Fault SourceRange := do
  let parts := Text.splitChar ':' text
  let start ← readPart text "start" parts[0]?
  let length ← readPart text "length" parts[1]?
  let fileIndex := parts[2]?.bind fun s => (Text.readInt s).toOption
  return ⟨start, length, fileIndex⟩

def text (r : SourceRange) : String :=
  let range := Text.decimal r.start ++ ":" ++ Text.decimal r.length
  match r.fileIndex with
  | none => range
  | some i => range ++ ":" ++ Text.signedDecimal i

/-- The offset of the last byte; the empty range at the start has none. -/
def last (r : SourceRange) : Option Nat :=
  if r.start + r.length = 0 then none else some (r.start + r.length - 1)

end SourceRange

end ContractModel
