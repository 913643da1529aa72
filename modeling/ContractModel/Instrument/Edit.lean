import ContractModel.FileTree
import ContractModel.Instrument.Error

/-! # Edits

An edit stands at a byte of a source and names the byte it expects there. Rendering applies the
edits of a source in one pass from the left; no edit may stand inside the bytes that an earlier one
replaces.
-/

namespace ContractModel

inductive EditKind where
  | insertBefore
  | insertAfter
  | replace (length : Nat)
  deriving DecidableEq, Repr

structure Edit where
  expected : UInt8
  payload : String
  kind : EditKind
  deriving DecidableEq, Repr

/-- The edits of a source by offset. -/
abbrev EditScript := SortedMap Nat Edit

/-- The edits of all sources by normal path. -/
abbrev SourceEdits := SortedMap String EditScript

namespace EditKind

/-- What is written for the byte at the edit. -/
def output (kind : EditKind) (payload : Bytes) (expected : UInt8) : Bytes :=
  match kind with
  | insertBefore => payload ++ [expected]
  | insertAfter => expected :: payload
  | replace _ => payload

/-- How many bytes behind the edit's own are left out. -/
def skipped : EditKind → Nat
  | replace length => length - 1
  | _ => 0

end EditKind

namespace EditScript

/-- Renders the source from the cursor on, given its bytes from there. -/
def renderFrom (file : String) (size : Nat) :
    Nat → Bytes → List (Nat × Edit) → Except InstrumentError Bytes
  | _, rest, [] => .ok rest
  | cursor, rest, (offset, e) :: edits =>
    if offset < cursor then .error (.conflict file offset)
    else
      match rest.drop (offset - cursor) with
      | [] => .error (.byteMismatch file offset e.expected none)
      | b :: behind =>
        if b ≠ e.expected then .error (.byteMismatch file offset e.expected (some b))
        else do
          let next := min (offset + 1 + e.kind.skipped) size
          let more ← renderFrom file size next (behind.drop e.kind.skipped) edits
          return rest.take (offset - cursor) ++
            (e.kind.output (FileTree.textBytes e.payload) e.expected ++ more)

/-- The source with all edits applied. -/
def render (file : String) (source : Bytes) (edits : EditScript) : Except InstrumentError Bytes :=
  renderFrom file source.length 0 source edits.entries

end EditScript

end ContractModel
