import ContractModel.Error
import ContractModel.Text.Blank
import ContractModel.Text.Search

/-! # Link directives

A directive `contract:reference=destination` sets a variable of a contract. The source ends at the
first equals sign and the contract at the first colon; blanks around the parts do not count.
-/

namespace ContractModel

structure LinkDirective where
  contract : String
  reference : String
  destination : String
  deriving DecidableEq, Repr

namespace LinkDirective

def text (d : LinkDirective) : String := d.contract ++ ":" ++ d.reference ++ "=" ++ d.destination

def parse? (s : String) : Option LinkDirective := do
  let (source, destination) ← Text.splitOnce "=" s
  let (contract, reference) ← Text.splitOnce ":" source
  let d : LinkDirective := ⟨Text.trim contract, Text.trim reference, Text.trim destination⟩
  if d.contract.isEmpty || d.reference.isEmpty || d.destination.isEmpty then none else some d

def parse (s : String) : Except Error LinkDirective :=
  match parse? s with
  | some d => .ok d
  | none => .error (.input (.linkForm s))

end LinkDirective

end ContractModel
