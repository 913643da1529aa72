import ContractModel.Text.Digit

/-! # Numbers in text

Positional numerals, and decimal integers of a bounded type with the cause of each failure. Digits
are read from the left, so the first fault met decides.
-/

namespace ContractModel.Text

/-- The digits of a number from the most significant, at least one, in front of the given ones. -/
def digitsBefore (radix n : Nat) (rest : List Char) : List Char :=
  if _h : radix < 2 ∨ n < radix then digitChar n :: rest
  else digitsBefore radix (n / radix) (digitChar (n % radix) :: rest)
termination_by n
decreasing_by exact Nat.div_lt_self (by omega) (by omega)

/-- The digits of a number from the most significant, at least one. -/
def digits (radix n : Nat) : List Char := digitsBefore radix n []

theorem digitsBefore_eq (radix n : Nat) (rest : List Char) :
    digitsBefore radix n rest = digits radix n ++ rest := by
  unfold digits
  induction n using Nat.strongRecOn generalizing rest with
  | _ n ih =>
    by_cases hs : radix < 2 ∨ n < radix
    · conv => lhs; rw [digitsBefore, dif_pos hs]
      rw [digitsBefore, dif_pos hs, List.singleton_append]
    · have hlt : n / radix < n := Nat.div_lt_self (by omega) (by omega)
      conv => lhs; rw [digitsBefore, dif_neg hs, ih _ hlt]
      conv => rhs; rw [digitsBefore, dif_neg hs, ih _ hlt]
      rw [List.append_assoc, List.singleton_append]

/-- The last digit stands behind the digits of the quotient. -/
theorem digits_of_le {radix n : Nat} (hr : 2 ≤ radix) (h : radix ≤ n) :
    digits radix n = digits radix (n / radix) ++ [digitChar (n % radix)] := by
  rw [digits, digitsBefore, dif_neg (by omega), digitsBefore_eq]

theorem digits_of_lt {radix n : Nat} (h : n < radix) : digits radix n = [digitChar n] := by
  rw [digits, digitsBefore, dif_pos (.inr h)]

theorem digits_ne_nil (radix n : Nat) : digits radix n ≠ [] := by
  rw [digits, digitsBefore]
  split
  · exact List.cons_ne_nil _ _
  · rw [digitsBefore_eq]
    exact List.append_ne_nil_of_right_ne_nil _ (List.cons_ne_nil _ _)

theorem exists_of_mem_digits {radix n : Nat} {c : Char} (hr : 2 ≤ radix)
    (h : c ∈ digits radix n) : ∃ d < radix, digitChar d = c := by
  induction n using Nat.strongRecOn with
  | _ n ih =>
    rcases Nat.lt_or_ge n radix with hn | hn
    · rw [digits_of_lt hn, List.mem_singleton] at h
      exact ⟨n, hn, h.symm⟩
    · rw [digits_of_le hr hn, List.mem_append, List.mem_singleton] at h
      rcases h with h | h
      · exact ih _ (Nat.div_lt_self (by omega) (by omega)) h
      · exact ⟨n % radix, Nat.mod_lt n (by omega), h.symm⟩

/-- Zeros in front of the digits up to the width. -/
def padded (width radix n : Nat) : List Char :=
  let ds := digits radix n
  List.replicate (width - ds.length) '0' ++ ds

def decimal (n : Nat) : String := String.ofList (digits 10 n)

def hexadecimal (n : Nat) : String := String.ofList (digits 16 n)

def hexadecimalPadded (width n : Nat) : String := String.ofList (padded width 16 n)

def signedDecimal : Int → String
  | .ofNat n => decimal n
  | .negSucc n => "-" ++ decimal (n + 1)

/-- The number that digits denote after the digits read so far, if all are digits. -/
def readDigits (radix : Nat) : Nat → List Char → Option Nat
  | acc, [] => some acc
  | acc, c :: cs => (digitValue radix c).bind fun d => readDigits radix (acc * radix + d) cs

theorem readDigits_append (radix acc : Nat) (cs ds : List Char) :
    readDigits radix acc (cs ++ ds) =
      (readDigits radix acc cs).bind fun n => readDigits radix n ds := by
  induction cs generalizing acc with
  | nil => rfl
  | cons c cs ih =>
    simp only [List.cons_append, readDigits]
    cases digitValue radix c with
    | none => rfl
    | some d => exact ih _

/-- Reading the digits of a number gives the number. -/
theorem readDigits_digits {radix : Nat} (h₂ : 2 ≤ radix) (h : radix ≤ 16) (n : Nat) :
    readDigits radix 0 (digits radix n) = some n := by
  induction n using Nat.strongRecOn with
  | _ n ih =>
    rcases Nat.lt_or_ge n radix with hn | hn
    · rw [digits_of_lt hn]
      simp [readDigits, digitValue_digitChar hn (by omega)]
    · have hlt : n / radix < n := Nat.div_lt_self (by omega) (by omega)
      have hmod : n % radix < radix := Nat.mod_lt n (by omega)
      rw [digits_of_le h₂ hn, readDigits_append, ih _ hlt]
      simp [readDigits, digitValue_digitChar hmod (by omega), Nat.div_add_mod']

theorem digits_injective {radix m n : Nat} (h₂ : 2 ≤ radix) (h : radix ≤ 16)
    (heq : digits radix m = digits radix n) : m = n := by
  have hm := readDigits_digits h₂ h m
  rw [heq, readDigits_digits h₂ h n] at hm
  exact (Option.some.inj hm).symm

theorem readDigits_padded {radix : Nat} (h₂ : 2 ≤ radix) (h : radix ≤ 16) (width n : Nat) :
    readDigits radix 0 (padded width radix n) = some n := by
  have hzeros (k : Nat) : readDigits radix 0 (List.replicate k '0') = some 0 := by
    induction k with
    | zero => rfl
    | succ k ih =>
      have hzero : digitValue radix '0' = some 0 :=
        @digitValue_digitChar radix 0 (by omega) (by omega)
      rw [List.replicate_succ, readDigits, hzero, Option.bind_some, Nat.zero_mul, ih]
  rw [padded, readDigits_append, hzeros, Option.bind_some, readDigits_digits h₂ h]

theorem hexadecimalPadded_injective {width m n : Nat}
    (h : hexadecimalPadded width m = hexadecimalPadded width n) : m = n := by
  have hm := readDigits_padded (by decide : 2 ≤ 16) (by decide) width m
  rw [String.ofList_injective h, readDigits_padded (by decide) (by decide)] at hm
  exact (Option.some.inj hm).symm

theorem length_digits_le {radix n k : Nat} (hr : 2 ≤ radix) (hk : 1 ≤ k)
    (h : n < Nat.pow radix k) : (digits radix n).length ≤ k := by
  induction k generalizing n with
  | zero => omega
  | succ k ih =>
    rcases Nat.lt_or_ge n radix with hn | hn
    · rw [digits_of_lt hn]
      exact hk
    · cases k with
      | zero => exact absurd (show n < 1 * radix from h) (by omega)
      | succ k =>
        have hquotient : n / radix < Nat.pow radix (k + 1) := Nat.div_lt_of_lt_mul (by
          rw [Nat.mul_comm]
          exact h)
        rw [digits_of_le hr hn, List.length_append, List.length_singleton]
        exact Nat.succ_le_succ (ih (Nat.succ_le_succ (Nat.zero_le k)) hquotient)

/-- A number that fits takes up the width. -/
theorem length_hexadecimalPadded {width n : Nat} (hw : 1 ≤ width) (h : n < Nat.pow 16 width) :
    (hexadecimalPadded width n).length = width := by
  have hlength := length_digits_le (by decide) hw h
  rw [hexadecimalPadded, padded, String.length_ofList, List.length_append, List.length_replicate]
  omega

theorem hexadecimal_injective {m n : Nat} (h : hexadecimal m = hexadecimal n) : m = n :=
  digits_injective (by decide) (by decide) (String.ofList_injective h)

theorem decimal_injective {m n : Nat} (h : decimal m = decimal n) : m = n :=
  digits_injective (by decide) (by decide) (String.ofList_injective h)

/-- A number written with at least one digit and nothing else. -/
def readNumeral (radix : Nat) (cs : List Char) : Option Nat :=
  if cs.isEmpty then none else readDigits radix 0 cs

inductive IntegerFault where
  | empty
  | invalidDigit
  | tooLarge
  | tooSmall
  deriving DecidableEq, Repr

def IntegerFault.message : IntegerFault → String
  | .empty => "cannot parse integer from empty string"
  | .invalidDigit => "invalid digit found in string"
  | .tooLarge => "number too large to fit in target type"
  | .tooSmall => "number too small to fit in target type"

/-- Reads digits as long as the value stays within the limit. -/
def readBounded (radix limit : Nat) (excess : IntegerFault) :
    Nat → List Char → Except IntegerFault Nat
  | acc, [] => .ok acc
  | acc, c :: cs =>
    match digitValue radix c with
    | none => .error .invalidDigit
    | some d =>
      if limit < acc * radix + d then .error excess
      else readBounded radix limit excess (acc * radix + d) cs

theorem le_of_readDigits {radix acc n : Nat} {cs : List Char} (hr : 1 ≤ radix)
    (h : readDigits radix acc cs = some n) : acc ≤ n := by
  induction cs generalizing acc with
  | nil =>
    cases h
    exact Nat.le_refl _
  | cons c cs ih =>
    obtain ⟨d, -, h⟩ := Option.bind_eq_some_iff.1 h
    have := ih h
    have := Nat.le_mul_of_pos_right acc (Nat.lt_of_lt_of_le Nat.zero_lt_one hr)
    omega

/-- Of digits all that can go wrong is the limit. -/
theorem readBounded_of_readDigits {radix limit acc n : Nat} {excess : IntegerFault}
    {cs : List Char} (hr : 1 ≤ radix) (hacc : acc ≤ limit)
    (h : readDigits radix acc cs = some n) :
    readBounded radix limit excess acc cs = if n ≤ limit then .ok n else .error excess := by
  induction cs generalizing acc with
  | nil =>
    cases h
    rw [readBounded, if_pos hacc]
  | cons c cs ih =>
    obtain ⟨d, hd, h⟩ := Option.bind_eq_some_iff.1 h
    simp only [readBounded, hd]
    split
    · next hlimit =>
      have := le_of_readDigits hr h
      rw [if_neg (by omega)]
    · next hlimit => exact ih (by omega) h

/-- The largest 64-bit integers, unsigned and signed. -/
def maxWord : Nat := 0xffffffffffffffff
def maxInt : Nat := 0x7fffffffffffffff

/-- An unsigned integer up to the limit; a plus sign may precede it. -/
def readNat (radix limit : Nat) (s : String) : Except IntegerFault Nat :=
  match s.toList with
  | [] => .error .empty
  | ['+'] => .error .invalidDigit
  | '+' :: cs => readBounded radix limit .tooLarge 0 cs
  | cs => readBounded radix limit .tooLarge 0 cs

/-- A 64-bit unsigned integer. -/
def readWord (s : String) : Except IntegerFault Nat := readNat 10 maxWord s

/-- A 64-bit signed integer; a sign may precede it. -/
def readInt (s : String) : Except IntegerFault Int :=
  match s.toList with
  | [] => .error .empty
  | ['+'] | ['-'] => .error .invalidDigit
  | '-' :: cs => (readBounded 10 (maxInt + 1) .tooSmall 0 cs).map fun n => -(n : Int)
  | '+' :: cs => (readBounded 10 maxInt .tooLarge 0 cs).map fun n => (n : Int)
  | cs => (readBounded 10 maxInt .tooLarge 0 cs).map fun n => (n : Int)

theorem readInt_decimal (n : Nat) :
    readInt (decimal n) = if n ≤ maxInt then .ok (n : Int) else .error .tooLarge := by
  have hread := readDigits_digits (by decide : 2 ≤ 10) (by decide) n
  have hne := digits_ne_nil 10 n
  rw [readInt, decimal, String.toList_ofList]
  generalize digits 10 n = cs at hread hne
  split
  · exact absurd rfl hne
  · cases hread
  · cases hread
  · cases hread
  · cases hread
  · rw [readBounded_of_readDigits (by decide) (by decide) hread]
    split <;> rfl

/-- An unbounded unsigned numeral: a plus sign may precede it and underscores may follow its first
digit. -/
def readUnbounded (radix : Nat) (s : String) : Option Nat :=
  let cs := match s.toList with
    | '+' :: cs => if cs.head? = some '+' then '+' :: cs else cs
    | cs => cs
  match cs with
  | [] => none
  | '_' :: _ => none
  | cs => readNumeral radix (cs.filter (· ≠ '_'))

end ContractModel.Text
