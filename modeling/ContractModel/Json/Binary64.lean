import ContractModel.Json.Basic
import ContractModel.Text.Number

/-! # Binary64 numbers in JSON text

Writing takes the fewest digits that read back, and of those the nearest. Reading scales a
64-bit significand by one power of ten, so a text of many digits may miss the nearest value.
-/

namespace ContractModel.Json.Binary64

/-- A positive finite value `mantissa * 2 ^ exponent`. -/
structure Dyadic where
  mantissa : Nat
  exponent : Int
  /-- The value below is only half as far away as the value above. -/
  narrowBelow : Bool
  deriving Repr

/-- The magnitude of a finite number that is not zero. -/
def magnitude (bits : UInt64) : Option Dyadic :=
  let fraction : Nat := bits.toNat % 0x10000000000000
  let biased : Nat := bits.toNat / 0x10000000000000 % 2048
  if biased = 2047 ∨ (biased = 0 ∧ fraction = 0) then none
  else if biased = 0 then some ⟨fraction, -1074, false⟩
  else some ⟨0x10000000000000 + fraction, (biased : Int) - 1075, fraction = 0 ∧ 1 < biased⟩

/-- `a * 2 ^ e * 10 ^ f` as a fraction. -/
def fraction (a : Nat) (e f : Int) : Nat × Nat :=
  (a * Nat.pow 2 e.toNat * Nat.pow 10 f.toNat, Nat.pow 2 (-e).toNat * Nat.pow 10 (-f).toNat)

/-- The exponent of a positive fraction's first digit: the largest `k` with `10 ^ k ≤ p / q`. -/
def leadingExponent (p q : Nat) : Int :=
  if q ≤ p then ((Text.digits 10 (p / q)).length : Int) - 1
  else
    let zeros := ((List.range 400).find? fun j => q ≤ p * Nat.pow 10 (j + 1)).getD 0
    Int.negSucc zeros

/-- Digits and the exponent of the last one. -/
structure Decimal where
  digits : Nat
  exponent : Int
  deriving Repr

/-- The better of the two neighbours of the value among the numbers with the given count of digits,
if one of them reads back. Ends of the interval read back iff the mantissa is even; a tie goes to
the even digit. -/
def onGrid (d : Dyadic) (lead : Int) (count : Nat) : Option Decimal :=
  let e := d.exponent - 2
  let k := lead - (count : Int) + 1
  let scaled (a : Nat) : Nat × Nat := fraction a e (-k)
  let (p, q) := scaled (4 * d.mantissa)
  let (lo, _) := scaled (4 * d.mantissa - (if d.narrowBelow then 1 else 2))
  let (hi, _) := scaled (4 * d.mantissa + 2)
  let inside (n : Nat) : Bool :=
    if d.mantissa % 2 = 0 then lo ≤ n * q && n * q ≤ hi else lo < n * q && n * q < hi
  let below := p / q
  let above := below + 1
  let belowNearer : Bool :=
    let twice := 2 * (p % q)
    twice < q || (twice == q && below % 2 == 0)
  match inside below && below ≠ 0, inside above with
  | true, true => some ⟨if belowNearer then below else above, k⟩
  | true, false => some ⟨below, k⟩
  | false, true => some ⟨above, k⟩
  | false, false => none

/-- The shortest decimal that reads back. -/
def shortest (d : Dyadic) : Decimal :=
  let (p, q) := fraction d.mantissa d.exponent 0
  let lead := leadingExponent p q
  ((List.range 17).findSome? fun n => onGrid d lead (n + 1)).getD ⟨d.mantissa, 0⟩

/-- Zeros at the end are dropped into the exponent. -/
def Decimal.stripped (d : Decimal) : Nat → Decimal
  | 0 => d
  | fuel + 1 =>
    if d.digits % 10 = 0 ∧ d.digits ≠ 0 then Decimal.stripped ⟨d.digits / 10, d.exponent + 1⟩ fuel
    else d

/-- The power of ten of a scientific number, always with its sign. -/
def powerText (exponent : Int) : List Char :=
  'e' :: (if 0 ≤ exponent then ['+'] else []) ++ (Text.signedDecimal exponent).toList

/-- Positional from `1e-5` up to below `1e16`, scientific elsewhere; a positional number always has
a fraction. -/
def Decimal.text (d : Decimal) : String :=
  let ds := Text.digits 10 d.digits
  let point : Int := ds.length + d.exponent
  let zeros (n : Int) : List Char := List.replicate n.toNat '0'
  let chars :=
    if 0 ≤ d.exponent ∧ point ≤ 16 then ds ++ zeros d.exponent ++ ['.', '0']
    else if 0 < point ∧ point ≤ 16 then ds.take point.toNat ++ '.' :: ds.drop point.toNat
    else if -5 < point ∧ point ≤ 0 then '0' :: '.' :: zeros (-point) ++ ds
    else
      let power := powerText (point - 1)
      match ds with
      | [c] => c :: power
      | c :: cs => c :: '.' :: cs ++ power
      | [] => power
  String.ofList chars

/-- The text of a number; one that is not finite has none. -/
def text (bits : UInt64) : Option String :=
  let negative := bits.toNat / 0x8000000000000000 = 1
  let unsigned :=
    if bits.toNat % 0x8000000000000000 = 0 then some "0.0"
    else (magnitude bits).map fun d => ((shortest d).stripped 20).text
  unsigned.map fun s => if negative then "-" ++ s else s

/-- `significand * 10 ^ exponent`, or `none` if it is too large. -/
def scaled (significand : Nat) (exponent : Int) : Option Float :=
  let f := significand.toUInt64.toFloat
  let power (n : Nat) : Float := Float.ofScientific 1 false n
  let rec divideDown (f : Float) (exponent : Nat) : Nat → Float
    | 0 => f
    | fuel + 1 =>
      if exponent ≤ 308 then f / power exponent
      else if f == 0 then f
      else divideDown (f / power 308) (exponent - 308) fuel
  if 0 ≤ exponent then
    if exponent ≤ 308 then
      let product := f * power exponent.toNat
      if product.isInf then none else some product
    else if f == 0 then some f
    else none
  else some (divideDown f (-exponent).toNat 8)

end ContractModel.Json.Binary64
