import ContractModel.Hash.Keccak
import ContractModel.Text.Number

/-! # Selectors

The selector of a function is the first four bytes of the Keccak-256 digest of its signature.
-/

namespace ContractModel

def hexBytes (bytes : List UInt8) : String :=
  String.ofList (bytes.flatMap fun b => Text.padded 2 16 b.toNat)

def selector (signature : String) : String :=
  hexBytes ((Keccak.digest signature.toUTF8.toList).take 4)

end ContractModel
