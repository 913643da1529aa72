import ContractModel.Syntax.Index
import ContractModel.Text.Digit
import ContractModel.Types.ParameterType

/-! # Array dimensions

The dimensions of an array type from the outermost, read from its text, where they stand behind the
base from the innermost, or from its tree node.
-/

namespace ContractModel.Dimensions

/-- The last group of decimal digits in brackets, digits in order, and the text in front of it. -/
def lastGroup? (reversed : List Char) : Option (List Char × List Char) :=
  match reversed with
  | ']' :: cs =>
    match cs.dropWhile Text.isDecimalDigit with
    | '[' :: rest => some ((cs.takeWhile Text.isDecimalDigit).reverse, rest)
    | _ => none
  | _ => none

theorem length_lastGroup? {cs ds rest : List Char} (h : lastGroup? cs = some (ds, rest)) :
    rest.length < cs.length := by
  unfold lastGroup? at h
  split at h
  · next cs =>
    split at h
    · next heq =>
      have : (cs.dropWhile Text.isDecimalDigit).length ≤ cs.length :=
        (List.dropWhile_suffix _).length_le
      simp only [Option.some.injEq, Prod.mk.injEq] at h
      rw [heq, h.2] at this
      simp at this ⊢
      omega
    · cases h
  · cases h

/-- An empty group is a dynamic dimension. -/
def ofGroup (digits : List Char) : Except Text.IntegerFault Int :=
  if digits.isEmpty then .ok (-1) else Text.readInt (String.ofList digits)

/-- Takes groups from the end of a reversed text. -/
def takeGroups (cs : List Char) : Except Text.IntegerFault (List Int × List Char) :=
  match _h : lastGroup? cs with
  | none => .ok ([], cs)
  | some (ds, rest) => do
    let d ← ofGroup ds
    let (more, base) ← takeGroups rest
    return (d :: more, base)
termination_by cs.length
decreasing_by exact length_lastGroup? (by assumption)

/-- The dimensions and the base of a type's text. -/
def ofTypeString (s : String) : Except Error (List Int × String) :=
  match takeGroups s.toList.reverse with
  | .ok (ds, base) => .ok (ds, String.ofList base.reverse)
  | .error fault => .error (.inconsistency (.arrayDimension s fault))

/-- The length in a node of an array type; a length that is not a literal counts as dynamic. -/
def nodeLength (n : Node) : Int :=
  (do (← (← n.get? "length").get? "value").asId?).getD (-1)

/-- The dimensions and the base of a type's node. -/
def ofNode (n : Node) : Except Error (List Int × Node) :=
  if n.is "ArrayTypeName" then
    match _h : n.child? "baseType" with
    | none => .error (.inconsistency (.noArrayBase n.id))
    | some element => do
      let (ds, base) ← ofNode element
      return (nodeLength n :: ds, base)
  else .ok ([], n)
termination_by sizeOf n.fields
decreasing_by exact Node.sizeOf_child (by assumption)

end ContractModel.Dimensions
