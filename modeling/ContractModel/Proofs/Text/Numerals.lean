import ContractModel.Proofs.Run
import ContractModel.Text.Number
import Mathlib.Data.List.Induction

/-! # Numerals read and written

A decimal numeral without leading zeros is written again as it was read, and a number that fits is
read as it was written. How many digits a number has bounds it, and the same digits denote more in
a larger radix.
-/

namespace ContractModel.Text

variable {radix radix' limit acc acc' m n : Nat} {excess : IntegerFault} {c : Char}
  {cs : List Char} {s : String}

theorem readDigits_of_readBounded (h : readBounded radix limit excess acc cs = .ok n) :
    readDigits radix acc cs = some n := by
  induction cs generalizing acc with
  | nil =>
    cases h
    rfl
  | cons c cs ih =>
    rw [readBounded] at h
    split at h
    · cases h
    · next d hd =>
      split at h
      · cases h
      · rw [readDigits, hd]
        exact ih h

theorem isSome_digitValue_of_mem (h : readDigits radix acc cs = some n) (hc : c ∈ cs) :
    (digitValue radix c).isSome := by
  induction cs generalizing acc with
  | nil => cases hc
  | cons c' cs ih =>
    obtain ⟨d, hd, h⟩ := Option.bind_eq_some_iff.1 h
    rcases List.mem_cons.1 hc with rfl | hc
    · exact Option.isSome_of_eq_some hd
    · exact ih h hc

theorem readWord_decimal (hn : n ≤ maxWord) : readWord (decimal n) = .ok n := by
  have hread := readDigits_digits (by decide : 2 ≤ 10) (by decide) n
  have hne := digits_ne_nil 10 n
  rw [readWord, readNat, decimal, String.toList_ofList]
  generalize digits 10 n = cs at hread hne
  split
  · exact absurd rfl hne
  · cases hread
  · cases hread
  · rw [readBounded_of_readDigits (by decide) (by decide) hread, if_pos hn]

/-- A word is written with digits and at most a plus sign. -/
theorem isSome_digitValue_of_readWord (h : readWord s = .ok n) (hc : c ∈ s.toList) :
    c = '+' ∨ (digitValue 10 c).isSome := by
  rw [readWord, readNat] at h
  split at h
  · cases h
  · cases h
  · next cs hcs =>
    rw [hcs, List.mem_cons] at hc
    exact hc.imp_right (isSome_digitValue_of_mem (readDigits_of_readBounded h))
  · exact .inr (isSome_digitValue_of_mem (readDigits_of_readBounded h) hc)

/-- An integer written with digits alone has no sign. -/
theorem exists_of_readInt {i : Int} (hdigits : ∀ c ∈ s.toList, isDecimalDigit c)
    (h : readInt s = .ok i) : ∃ n : Nat, i = n ∧ readDigits 10 0 s.toList = some n := by
  have hsign {c : Char} {cs : List Char} (hc : isDecimalDigit c = false) : s.toList ≠ c :: cs := by
    intro heq
    have hdigit := hdigits c (by simp [heq])
    simp [hc] at hdigit
  rw [readInt] at h
  split at h
  · cases h
  · cases h
  · cases h
  · next heq => exact absurd heq (hsign (by decide))
  · next heq => exact absurd heq (hsign (by decide))
  · obtain ⟨i, hi, rfl⟩ := Run.map_eq_ok_iff.1 h
    obtain ⟨n, hn, hi⟩ := Run.except_bind_eq_ok_iff.1 hi
    cases hi
    exact ⟨n, rfl, readDigits_of_readBounded hn⟩

theorem digitValue_eq_some_iff {d : Nat} : digitValue radix c = some d ↔ d < radix ∧
    (48 ≤ c.toNat ∧ c.toNat ≤ 57 ∧ d = c.toNat - 48 ∨
      97 ≤ c.toNat ∧ c.toNat ≤ 122 ∧ d = c.toNat - 87 ∨
      65 ≤ c.toNat ∧ c.toNat ≤ 90 ∧ d = c.toNat - 55) := by
  rw [digitValue, Option.filter_eq_some_iff, decide_eq_true_iff, and_comm]
  refine and_congr_right fun _ => ?_
  split
  · rw [Option.some_inj]
    omega
  · split
    · rw [Option.some_inj]
      omega
    · split
      · rw [Option.some_inj]
        omega
      · simp only [reduceCtorEq, false_iff]
        omega

theorem isDigit_iff_toNat : c.isDigit ↔ 48 ≤ c.toNat ∧ c.toNat ≤ 57 := by
  simp [Char.isDigit, UInt32.le_iff_toNat_le]

/-- The decimal digits are the ASCII ones. -/
theorem isSome_digitValue_ten_iff : (digitValue 10 c).isSome ↔ c.isDigit := by
  rw [Option.isSome_iff_exists, isDigit_iff_toNat]
  simp only [digitValue_eq_some_iff]
  constructor
  · rintro ⟨d, hd⟩
    omega
  · intro h
    exact ⟨c.toNat - 48, by omega⟩

/-- The hexadecimal digits go on with six letters, small or capital. -/
theorem isSome_digitValue_sixteen_iff : (digitValue 16 c).isSome ↔
    c.isDigit ∨ ('a' ≤ c ∧ c ≤ 'f') ∨ 'A' ≤ c ∧ c ≤ 'F' := by
  rw [Option.isSome_iff_exists, isDigit_iff_toNat]
  simp only [digitValue_eq_some_iff, Char.le_def, UInt32.le_iff_toNat_le, Char.toNat_val]
  constructor
  · rintro ⟨d, hd, h | h | h⟩
    · exact .inl ⟨h.1, h.2.1⟩
    · refine .inr (.inl ⟨h.1, ?_⟩)
      show c.toNat ≤ 102
      omega
    · refine .inr (.inr ⟨h.1, ?_⟩)
      show c.toNat ≤ 70
      omega
  · rintro (h | ⟨h, h'⟩ | ⟨h, h'⟩)
    · exact ⟨c.toNat - 48, by omega, .inl ⟨h.1, h.2, rfl⟩⟩
    · have h : 97 ≤ c.toNat := h
      have h' : c.toNat ≤ 102 := h'
      exact ⟨c.toNat - 87, by omega⟩
    · have h : 65 ≤ c.toNat := h
      have h' : c.toNat ≤ 70 := h'
      exact ⟨c.toNat - 55, by omega⟩

theorem digitValue_lt {d : Nat} (h : digitValue radix c = some d) : d < radix :=
  (digitValue_eq_some_iff.1 h).1

/-- A digit has the same value in every larger radix. -/
theorem digitValue_of_le {d : Nat} (hle : radix ≤ radix') (h : digitValue radix c = some d) :
    digitValue radix' c = some d := by
  rw [digitValue_eq_some_iff] at h ⊢
  exact ⟨by omega, h.2⟩

theorem digitChar_of_digitValue {d : Nat} (h : digitValue 10 c = some d) :
    digitChar d = c ∧ d < 10 := by
  rw [digitValue_eq_some_iff] at h
  have hchar : 48 + d = c.toNat := by omega
  rw [digitChar, if_pos h.1, hchar, Char.ofNat_toNat]
  exact ⟨rfl, h.1⟩

theorem isLowercase_digitChar :
    ∀ d < 16, (digitChar d).isDigit ∨ 'a' ≤ digitChar d ∧ digitChar d ≤ 'f' := by decide

theorem exists_digitChar_of_isLowercase (h : c.isDigit ∨ 'a' ≤ c ∧ c ≤ 'f') :
    ∃ d < 16, digitChar d = c := by
  rw [isDigit_iff_toNat] at h
  rcases h with h | ⟨h, h'⟩
  · refine ⟨c.toNat - 48, by omega, ?_⟩
    rw [digitChar, if_pos (by omega), Nat.add_sub_of_le h.1, Char.ofNat_toNat]
  · have h : 97 ≤ c.toNat := h
    have h' : c.toNat ≤ 102 := h'
    refine ⟨c.toNat - 87, by omega, ?_⟩
    rw [digitChar, if_neg (by omega), Nat.add_sub_of_le (by omega), Char.ofNat_toNat]

/-- A numeral has no zero in front of other digits. -/
def IsShort (cs : List Char) : Prop := cs.head? = some '0' → cs = ['0']

instance : DecidablePred IsShort := fun cs =>
  inferInstanceAs (Decidable (cs.head? = some '0' → cs = ['0']))

theorem isShort_digits (h₂ : 2 ≤ radix) (h₁₆ : radix ≤ 16) (n : Nat) :
    IsShort (digits radix n) := by
  induction n using Nat.strongRecOn with
  | _ n ih =>
    rcases Nat.lt_or_ge n radix with hn | hn
    · rw [digits_of_lt hn]
      intro hzero
      simpa using hzero
    · intro hzero
      rw [digits_of_le h₂ hn, List.head?_append_of_ne_nil _ (digits_ne_nil radix _)] at hzero
      have hpos : 0 < radix := Nat.lt_of_lt_of_le Nat.zero_lt_two h₂
      have hquotient : digits radix (n / radix) = digits radix 0 := by
        rw [digits_of_lt hpos]
        exact ih _ (Nat.div_lt_self (by omega) h₂) hzero
      have hzero : n / radix = 0 := digits_injective h₂ h₁₆ hquotient
      exact absurd hn (Nat.not_le.2 ((Nat.div_eq_zero_iff_lt hpos).1 hzero))

theorem exists_readDigits_iff :
    (∃ n, readDigits radix acc cs = some n) ↔ ∀ c ∈ cs, (digitValue radix c).isSome := by
  refine ⟨fun ⟨n, h⟩ c hc => isSome_digitValue_of_mem h hc, fun h => ?_⟩
  induction cs generalizing acc with
  | nil => exact ⟨acc, rfl⟩
  | cons c cs ih =>
    obtain ⟨hc, hcs⟩ := List.forall_mem_cons.1 h
    obtain ⟨d, hd⟩ := Option.isSome_iff_exists.1 hc
    rw [readDigits, hd]
    exact ih hcs

/-- Digits below the radix denote a number. -/
theorem exists_readDigits_of_digits (h₁₆ : radix ≤ 16)
    (hdigits : ∀ c ∈ cs, ∃ d < radix, digitChar d = c) (acc : Nat) :
    ∃ n, readDigits radix acc cs = some n := by
  refine exists_readDigits_iff.2 fun c hc => ?_
  obtain ⟨d, hlt, rfl⟩ := hdigits c hc
  rw [digitValue_digitChar hlt (Nat.lt_of_lt_of_le hlt h₁₆)]
  rfl

/-- Lowercase digits without a zero in front are those of the number that they denote. -/
theorem digits_of_readLowercase (h₂ : 2 ≤ radix) (h₁₆ : radix ≤ 16) (hne : cs ≠ [])
    (hshort : IsShort cs) (hdigits : ∀ c ∈ cs, ∃ d < radix, digitChar d = c)
    (h : readDigits radix 0 cs = some n) : digits radix n = cs := by
  induction cs using List.reverseRecOn generalizing n with
  | nil => exact absurd rfl hne
  | append_singleton cs c ih =>
    obtain ⟨hcs, hc⟩ := List.forall_mem_append.1 hdigits
    obtain ⟨d, hlt, rfl⟩ := hc c List.mem_cons_self
    rw [readDigits_append] at h
    obtain ⟨m, hm, h⟩ := Option.bind_eq_some_iff.1 h
    rw [readDigits, digitValue_digitChar hlt (Nat.lt_of_lt_of_le hlt h₁₆)] at h
    obtain rfl : m * radix + d = n := Option.some.inj h
    cases cs with
    | nil =>
      obtain rfl : 0 = m := Option.some.inj hm
      rw [Nat.zero_mul, Nat.zero_add, digits_of_lt hlt, List.nil_append]
    | cons c cs =>
      have hfirst : c ≠ '0' := by
        rintro rfl
        simpa using hshort rfl
      have hfront : digits radix m = c :: cs := by
        apply ih (List.cons_ne_nil c cs) _ hcs hm
        intro hzero
        exact absurd (Option.some.inj hzero) hfirst
      have hm : 0 < m := by
        refine Nat.pos_of_ne_zero ?_
        rintro rfl
        rw [digits_of_lt (Nat.lt_of_lt_of_le Nat.zero_lt_two h₂)] at hfront
        exact hfirst (List.cons.inj hfront).1.symm
      have hquotient : (m * radix + d) / radix = m := by
        rw [Nat.add_comm, Nat.add_mul_div_right _ _ (by omega), Nat.div_eq_of_lt hlt, Nat.zero_add]
      have hrest : (m * radix + d) % radix = d := by
        rw [Nat.add_comm, Nat.add_mul_mod_self_right, Nat.mod_eq_of_lt hlt]
      have hle : radix ≤ m * radix + d :=
        Nat.le_trans (Nat.le_mul_of_pos_left radix hm) (Nat.le_add_right _ d)
      rw [digits_of_le h₂ hle, hquotient, hrest, hfront]

theorem digits_of_readDigits (hne : cs ≠ []) (hshort : IsShort cs)
    (h : readDigits 10 0 cs = some n) : digits 10 n = cs := by
  refine digits_of_readLowercase (by decide) (by decide) hne hshort (fun c hc => ?_) h
  obtain ⟨d, hd⟩ := Option.isSome_iff_exists.1 (isSome_digitValue_of_mem h hc)
  exact ⟨d, (digitChar_of_digitValue hd).2, (digitChar_of_digitValue hd).1⟩

/-- The larger radix gives the larger number. -/
theorem lt_of_readDigits (hle : radix ≤ radix') (hlt : acc < acc')
    (h : readDigits radix acc cs = some m) (h' : readDigits radix' acc' cs = some n) : m < n := by
  induction cs generalizing acc acc' with
  | nil =>
    cases h
    cases h'
    exact hlt
  | cons c cs ih =>
    obtain ⟨d, hd, h⟩ := Option.bind_eq_some_iff.1 h
    rw [readDigits, digitValue_of_le hle hd] at h'
    have hpos : 0 < radix' := Nat.lt_of_lt_of_le (Nat.zero_lt_of_lt (digitValue_lt hd)) hle
    refine ih ?_ h h'
    have hscaled : acc * radix < acc' * radix' :=
      Nat.lt_of_le_of_lt (Nat.mul_le_mul_left acc hle) (Nat.mul_lt_mul_of_pos_right hlt hpos)
    omega

/-- Only a single digit denotes the same number in decimal and in hexadecimal. -/
theorem length_le_one_of_readDigits (hshort : IsShort cs) (h : readDigits 10 0 cs = some n)
    (h' : readDigits 16 0 cs = some n) : cs.length ≤ 1 := by
  rcases cs with - | ⟨c, - | ⟨c', cs⟩⟩
  · exact Nat.zero_le 1
  · exact Nat.le_refl 1
  · obtain ⟨d, hd, h⟩ := Option.bind_eq_some_iff.1 h
    obtain ⟨d', hd', h⟩ := Option.bind_eq_some_iff.1 h
    rw [readDigits, digitValue_of_le (by decide) hd, Option.bind_some, readDigits,
      digitValue_of_le (by decide) hd', Option.bind_some] at h'
    have hfirst : d ≠ 0 := by
      rintro rfl
      have hzero : '0' = c := (digitChar_of_digitValue hd).1
      have := hshort (by rw [hzero]; rfl)
      simp at this
    exact absurd (lt_of_readDigits (by decide) (by omega) h h') (Nat.lt_irrefl n)

/-- The digits of a number bound it. -/
theorem lt_pow_of_readDigits (h : readDigits radix acc cs = some n) :
    n < (acc + 1) * Nat.pow radix cs.length := by
  induction cs generalizing acc with
  | nil =>
    cases h
    exact Nat.lt_of_lt_of_eq (Nat.lt_succ_self _) (Nat.mul_one _).symm
  | cons c cs ih =>
    obtain ⟨d, hd, h⟩ := Option.bind_eq_some_iff.1 h
    have hd := digitValue_lt hd
    have hstep : acc * radix + d + 1 ≤ (acc + 1) * radix := by
      rw [Nat.succ_mul]
      omega
    calc n < (acc * radix + d + 1) * Nat.pow radix cs.length := ih h
      _ ≤ (acc + 1) * radix * Nat.pow radix cs.length := Nat.mul_le_mul_right _ hstep
      _ = (acc + 1) * Nat.pow radix (cs.length + 1) := by
        rw [Nat.mul_assoc, Nat.mul_comm radix]
        rfl

theorem lt_pow_length_digits {radix n : Nat} (h₂ : 2 ≤ radix) (h : radix ≤ 16) :
    n < Nat.pow radix (digits radix n).length := by
  have hlt := lt_pow_of_readDigits (readDigits_digits h₂ h n)
  rwa [Nat.zero_add, Nat.one_mul] at hlt

theorem readNumeral_eq_some_iff :
    readNumeral radix cs = some n ↔ cs ≠ [] ∧ readDigits radix 0 cs = some n := by
  unfold readNumeral
  cases cs <;> simp

theorem exists_readNumeral_iff :
    (∃ n, readNumeral radix cs = some n) ↔ cs ≠ [] ∧ ∀ c ∈ cs, (digitValue radix c).isSome := by
  simp only [readNumeral_eq_some_iff, exists_and_left, exists_readDigits_iff]

/-- What stands behind a plus sign, if only one is there. -/
def behindSign : List Char → List Char
  | '+' :: cs => if cs.head? = some '+' then '+' :: cs else cs
  | cs => cs

theorem behindSign_subset (cs : List Char) : behindSign cs ⊆ cs := by
  unfold behindSign
  split
  · split
    · exact List.Subset.refl _
    · exact List.subset_cons_self _ _
  · exact List.Subset.refl _

theorem readUnbounded_eq (hs : '_' ∉ s.toList) :
    readUnbounded radix s = readNumeral radix (behindSign s.toList) := by
  have hs : '_' ∉ behindSign s.toList := fun h => hs (behindSign_subset _ h)
  unfold readUnbounded
  extract_lets behind
  have hbehind : behind = behindSign s.toList := rfl
  clear_value behind
  subst hbehind
  split
  · next heq => rw [heq]; rfl
  · next heq => simp [heq] at hs
  · rw [List.filter_eq_self.2 fun c hc => decide_eq_true (ne_of_mem_of_not_mem hc hs)]

/-- Without underscores a numeral is digits, perhaps behind a plus sign. -/
theorem readUnbounded_eq_some_iff (hs : '_' ∉ s.toList) :
    readUnbounded radix s = some n ↔ ∃ ds, (s.toList = ds ∨ s.toList = '+' :: ds) ∧ ds ≠ [] ∧
      readDigits radix 0 ds = some n := by
  have hsign {cs : List Char} : readDigits radix 0 ('+' :: cs) = none := rfl
  rw [readUnbounded_eq hs, readNumeral_eq_some_iff]
  generalize s.toList = cs
  constructor
  · intro h
    refine ⟨behindSign cs, ?_, h⟩
    unfold behindSign at h ⊢
    split at h
    · split
      · exact .inl rfl
      · exact .inr rfl
    · exact .inl rfl
  · rintro ⟨ds, rfl | rfl, hne, hread⟩
    · have hds : behindSign cs = cs := by
        unfold behindSign
        split
        · cases hread
        · rfl
      rw [hds]
      exact ⟨hne, hread⟩
    · have hds : behindSign ('+' :: ds) = ds := by
        refine if_neg fun hplus => ?_
        obtain ⟨ds, rfl⟩ := List.head?_eq_some_iff.1 hplus
        cases hread
      rw [hds]
      exact ⟨hne, hread⟩

theorem readUnbounded_of_readNumeral (h : readNumeral radix s.toList = some n) :
    readUnbounded radix s = some n := by
  obtain ⟨hne, hread⟩ := readNumeral_eq_some_iff.1 h
  have hs : '_' ∉ s.toList := fun hc => by
    have hdigit := isSome_digitValue_of_mem hread hc
    simp [digitValue] at hdigit
  exact (readUnbounded_eq_some_iff hs).2 ⟨s.toList, .inl rfl, hne, hread⟩

end ContractModel.Text
