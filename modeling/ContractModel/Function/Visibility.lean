/-! # Visibility and mutability

Who may call a function, and whether it accepts value.
-/

namespace ContractModel

inductive Visibility where
  | external
  | pub
  | internal
  | priv
  deriving DecidableEq, Repr, Inhabited

namespace Visibility

def text : Visibility → String
  | external => "external"
  | pub => "public"
  | internal => "internal"
  | priv => "private"

def ofText? : String → Option Visibility
  | "external" => some external
  | "public" => some pub
  | "internal" => some internal
  | "private" => some priv
  | _ => none

theorem ofText?_eq_some_iff {s : String} {v : Visibility} : ofText? s = some v ↔ s = v.text := by
  constructor
  · intro h
    unfold ofText? at h
    split at h <;> cases h <;> rfl
  · rintro rfl
    cases v <;> rfl

/-- Whether a function may be called from outside. -/
def isExternal (v : Visibility) : Bool := v = external || v = pub

def isInternal (v : Visibility) : Bool := v = internal || v = priv

end Visibility

/-- The mutability of a function that states none. -/
def defaultMutability : String := "nonpayable"

def isNotPayable (mutability : String) : Bool :=
  mutability == "nonpayable" || mutability == "view" || mutability == "pure"

end ContractModel
