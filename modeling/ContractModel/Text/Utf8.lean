/-! # Reading bytes as text

Bytes that are no UTF-8 are read with a replacement character for each longest beginning of a
character that is broken off.
-/

namespace ContractModel.Text

def replacement : Char := '\ufffd'

/-- How many bytes follow a first byte, the range of the first of them, and the bits it starts
with. -/
def leading (b : UInt8) : Option (Nat × UInt8 × UInt8 × Nat) :=
  if 0xc2 ≤ b ∧ b ≤ 0xdf then some (1, 0x80, 0xbf, b.toNat % 32)
  else if b = 0xe0 then some (2, 0xa0, 0xbf, 0)
  else if b = 0xed then some (2, 0x80, 0x9f, 13)
  else if 0xe1 ≤ b ∧ b ≤ 0xef then some (2, 0x80, 0xbf, b.toNat % 16)
  else if b = 0xf0 then some (3, 0x90, 0xbf, 0)
  else if 0xf1 ≤ b ∧ b ≤ 0xf3 then some (3, 0x80, 0xbf, b.toNat % 8)
  else if b = 0xf4 then some (3, 0x80, 0x8f, 4)
  else none

/-- Reads the bytes that still belong to a character: how many are missing, the range of the next
one, and the bits so far. -/
def decodeFrom : Option (Nat × UInt8 × UInt8 × Nat) → List UInt8 → List Char
  | none, [] => []
  | some _, [] => [replacement]
  | none, b :: bs =>
    if b < 0x80 then Char.ofNat b.toNat :: decodeFrom none bs
    else
      match leading b with
      | some pending => decodeFrom (some pending) bs
      | none => replacement :: decodeFrom none bs
  | some (missing, low, high, bits), b :: bs =>
    if low ≤ b ∧ b ≤ high then
      let bits := bits * 64 + b.toNat % 64
      if missing ≤ 1 then Char.ofNat bits :: decodeFrom none bs
      else decodeFrom (some (missing - 1, 0x80, 0xbf, bits)) bs
    else if b < 0x80 then replacement :: Char.ofNat b.toNat :: decodeFrom none bs
    else
      match leading b with
      | some pending => replacement :: decodeFrom (some pending) bs
      | none => replacement :: replacement :: decodeFrom none bs

def decodeLossy (bytes : List UInt8) : String := String.ofList (decodeFrom none bytes)

end ContractModel.Text
