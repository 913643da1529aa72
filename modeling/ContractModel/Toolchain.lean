import ContractModel.Language

/-! # Toolchains

The compiler a contract was built with. Its version decides which assembly accessors the generated
code may use.
-/

namespace ContractModel

structure Version where
  major : Nat
  minor : Nat
  patch : Nat
  deriving DecidableEq, Repr, Inhabited

namespace Version

/-- Versions are compared by their parts from the left. -/
def le (v w : Version) : Bool :=
  v.major < w.major || (v.major == w.major &&
    (v.minor < w.minor || (v.minor == w.minor && v.patch ≤ w.patch)))

def text (v : Version) : String :=
  Text.decimal v.major ++ "." ++ Text.decimal v.minor ++ "." ++ Text.decimal v.patch

end Version

structure Toolchain where
  lang : Language
  executable : String
  version : Version
  optimizationFlags : String
  deriving DecidableEq, Repr, Inhabited

namespace Toolchain

/-- The first version with `.offset` and `.length` of calldata in assembly. -/
def calldataAccessors : Version := ⟨0, 7, 5⟩

/-- The first version that writes the slot of a storage variable as `.slot`. -/
def dotSlot : Version := ⟨0, 7, 0⟩

def compilerName (t : Toolchain) : String := t.lang.compilerName

/-- Only a named argument has accessors. -/
def hasCalldataAccessors (t : Toolchain) (name : String) : Bool :=
  name != "" && calldataAccessors.le t.version

/-- How assembly reads a variable. -/
def assemblyName (t : Toolchain) (storage : Bool) (name : String) : String :=
  if !storage then name
  else if dotSlot.le t.version then name ++ ".slot"
  else name ++ "_slot"

end Toolchain

end ContractModel
