import ContractModel.Compilation.Input
import ContractModel.Compilation.Output
import ContractModel.Toolchain

/-! # Compilers

A compiler answers requests. An answer may depend on the files and on all requests before, so a
compiler that behaves differently each time it is asked is a compiler too.
-/

namespace ContractModel

/-- What a compiler is asked for: its version, the output for an input, or the assembly listing of a
source. Imports are read from the allowed paths. -/
inductive CompilerRequest where
  | version (executable : String)
  | output (executable : String) (input : CompilerInput) (allowedPaths : List String)
  | assembly (executable path : String) (arguments allowedPaths : List String)

namespace CompilerRequest

@[reducible] def Answer : CompilerRequest → Type
  | version _ => Version
  | output _ _ _ => CompilerOutput
  | assembly _ _ _ _ => String

end CompilerRequest

structure Compiler where
  answer : FileTree → List CompilerRequest → (r : CompilerRequest) → Except ToolFault r.Answer

end ContractModel
