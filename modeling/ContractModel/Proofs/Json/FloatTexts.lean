import ContractModel.Proofs.Json.NumberTexts

/-! # Binary64 numbers in texts

Every finite number is printed as a number: it has a digit that is not zero, so the digits in front
of its point do not begin with a zero unless it is the only one.
-/

namespace ContractModel.Json.Binary64

open ContractModel.Json.Parser

/-- A number without its sign. -/
def IsNumeral (cs : List Char) : Prop :=
  ∃ whole fraction power, cs = whole ++ (fraction ++ power) ∧ IsDigits whole ∧
    Text.IsShort whole ∧ IsFraction fraction ∧ IsPower power

variable {d d' : Dyadic} {n : Decimal} {ds : List Char}

theorem digits_ne_zero_of_onGrid {lead : Int} {count : Nat} (h : onGrid d lead count = some n) :
    n.digits ≠ 0 := by
  unfold onGrid at h
  dsimp only at h
  split at h
  · next hbelow _ =>
    rw [Bool.and_eq_true, decide_eq_true_iff] at hbelow
    cases h
    dsimp only
    split
    · exact hbelow.2
    · exact Nat.succ_ne_zero _
  · next hbelow _ =>
    rw [Bool.and_eq_true, decide_eq_true_iff] at hbelow
    cases h
    exact hbelow.2
  · cases h
    exact Nat.succ_ne_zero _
  · cases h

theorem digits_shortest_ne_zero (h : d.mantissa ≠ 0) : (shortest d).digits ≠ 0 := by
  unfold shortest
  dsimp only
  generalize leadingExponent _ _ = lead
  cases hfound : (List.range 17).findSome? fun n => onGrid d lead (n + 1) with
  | none => exact h
  | some n =>
    obtain ⟨k, -, hk⟩ := List.exists_of_findSome?_eq_some hfound
    exact digits_ne_zero_of_onGrid hk

theorem mantissa_ne_zero {bits : UInt64} (h : magnitude bits = some d) : d.mantissa ≠ 0 := by
  unfold magnitude at h
  dsimp only at h
  split at h
  · cases h
  · split at h
    · next hfinite hzero =>
      cases h
      dsimp only
      omega
    · cases h
      exact Nat.ne_of_gt (Nat.add_pos_left (by decide) _)

theorem digits_stripped_ne_zero (h : n.digits ≠ 0) (fuel : Nat) : (n.stripped fuel).digits ≠ 0 := by
  induction fuel generalizing n with
  | zero => exact h
  | succ fuel ih =>
    unfold Decimal.stripped
    split
    · next hzero => exact ih (by dsimp only; omega)
    · exact h

theorem head?_digits_ne_zero {n : Nat} (h : n ≠ 0) : (Text.digits 10 n).head? ≠ some '0' := by
  intro hhead
  have hzero : Text.digits 10 n = Text.digits 10 0 := by
    rw [Text.digits_of_lt (by decide : 0 < 10)]
    exact isShort_decimal n hhead
  exact h (Text.digits_injective (by decide) (by decide) hzero)

theorem isPower_powerText (exponent : Int) : IsPower (powerText exponent) := by
  refine .inr ?_
  unfold powerText
  split
  · next hpos =>
    obtain ⟨n, rfl⟩ := Int.eq_ofNat_of_zero_le hpos
    refine ⟨'+', Text.digits 10 n, .inl rfl, isDigits_digits n, ?_⟩
    simp [Text.signedDecimal, Text.decimal]
  · next hneg =>
    cases exponent with
    | ofNat n => exact absurd (Int.natCast_nonneg n) hneg
    | negSucc n =>
      refine ⟨'-', Text.digits 10 (n + 1), .inr rfl, isDigits_digits _, ?_⟩
      simp [Text.signedDecimal, Text.decimal]

theorem isShort_of_head (h : ds.head? ≠ some '0') : Text.IsShort ds := fun hzero => absurd hzero h

theorem isDigits_append (hds : IsDigits ds) {ds' : List Char} (hds' : ∀ c ∈ ds', c.isDigit) :
    IsDigits (ds ++ ds') :=
  ⟨List.append_ne_nil_of_left_ne_nil hds.1 _, List.forall_mem_append.2 ⟨hds.2, hds'⟩⟩

theorem isDigits_zero : IsDigits ['0'] :=
  ⟨List.cons_ne_nil _ _, List.forall_mem_singleton.2 rfl⟩

theorem isDigit_of_mem_replicate {k : Nat} {c : Char} (h : c ∈ List.replicate k '0') :
    c.isDigit := by
  rw [List.eq_of_mem_replicate h]
  rfl

theorem isNumeral_fraction {fraction : List Char} (hds : IsDigits ds) (hshort : Text.IsShort ds)
    (hfraction : IsDigits fraction) : IsNumeral (ds ++ '.' :: fraction) :=
  ⟨ds, '.' :: fraction, [], by simp, hds, hshort, .inr ⟨fraction, hfraction, rfl⟩, .inl rfl⟩

/-- The point may stand between any two digits. -/
theorem isNumeral_take_drop (hds : IsDigits ds) (hhead : ds.head? ≠ some '0') {k : Nat}
    (hpos : 0 < k) (hlt : k < ds.length) : IsNumeral (ds.take k ++ '.' :: ds.drop k) := by
  refine isNumeral_fraction ⟨?_, fun c hc => hds.2 c (List.mem_of_mem_take hc)⟩ ?_
    ⟨?_, fun c hc => hds.2 c (List.mem_of_mem_drop hc)⟩
  · refine List.ne_nil_of_length_pos ?_
    rw [List.length_take]
    omega
  · refine isShort_of_head ?_
    rwa [List.head?_take, if_neg (by omega)]
  · refine List.ne_nil_of_length_pos ?_
    rw [List.length_drop]
    omega

/-- A power stands behind one digit and the fraction that the others are. -/
theorem isNumeral_scientific {c : Char} {cs power : List Char} (hds : IsDigits (c :: cs))
    (hhead : c ≠ '0') (hpower : IsPower power) :
    IsNumeral (match c :: cs with
      | [c] => c :: power
      | c :: cs => c :: '.' :: cs ++ power
      | [] => power) := by
  have hshort : Text.IsShort [c] := isShort_of_head (by simpa using hhead)
  obtain ⟨hc, hcs⟩ := List.forall_mem_cons.1 hds.2
  have hwhole : IsDigits [c] := ⟨List.cons_ne_nil _ _, by simpa using hc⟩
  cases cs with
  | nil => exact ⟨[c], [], power, rfl, hwhole, hshort, .inl rfl, hpower⟩
  | cons c' cs =>
    refine ⟨[c], '.' :: c' :: cs, power, rfl, hwhole, hshort, ?_, hpower⟩
    exact .inr ⟨c' :: cs, ⟨List.cons_ne_nil _ _, hcs⟩, rfl⟩

/-- A decimal is written as a number, wherever its point stands. -/
theorem isNumeral_text (h : n.digits ≠ 0) : IsNumeral n.text.toList := by
  have hhead := head?_digits_ne_zero h
  have hdigits := isDigits_digits n.digits
  unfold Decimal.text
  rw [String.toList_ofList]
  dsimp only
  generalize Text.digits 10 n.digits = ds at hhead hdigits
  split
  · refine isNumeral_fraction ?_ ?_ isDigits_zero
    · exact isDigits_append hdigits fun c => isDigit_of_mem_replicate
    · refine isShort_of_head ?_
      rwa [List.head?_append_of_ne_nil _ hdigits.1]
  · split
    · exact isNumeral_take_drop hdigits hhead (by omega) (by omega)
    · split
      · generalize (-(ds.length + n.exponent : Int)).toNat = k
        have hfraction : IsDigits (List.replicate k '0' ++ ds) :=
          ⟨List.append_ne_nil_of_right_ne_nil _ hdigits.1,
            List.forall_mem_append.2 ⟨fun c => isDigit_of_mem_replicate, hdigits.2⟩⟩
        exact isNumeral_fraction isDigits_zero (by decide) hfraction
      · match ds, hdigits with
        | c :: cs, hdigits =>
          exact isNumeral_scientific hdigits (by simpa using hhead) (isPower_powerText _)

theorem isNumeral_unsigned {bits : UInt64} {d : Dyadic} (h : magnitude bits = some d) :
    IsNumeral ((shortest d).stripped 20).text.toList :=
  isNumeral_text (digits_stripped_ne_zero (digits_shortest_ne_zero (mantissa_ne_zero h)) 20)

/-- Every number that has a text is printed as one that can be read. -/
theorem exists_number_of_text {bits : UInt64} {s : String} (h : text bits = some s) :
    ∃ w, ∀ rest, Ends rest → Parser.number (s.toList ++ rest) = some (w, rest) := by
  obtain ⟨unsigned, hunsigned, hs⟩ := Option.map_eq_some_iff.1 h
  have hnumeral : IsNumeral unsigned.toList := by
    split at hunsigned
    · cases hunsigned
      exact ⟨['0'], ['.', '0'], [], by decide, isDigits_zero, by decide,
        .inr ⟨['0'], isDigits_zero, rfl⟩, .inl rfl⟩
    · obtain ⟨d, hd, rfl⟩ := Option.map_eq_some_iff.1 hunsigned
      exact isNumeral_unsigned hd
  obtain ⟨whole, fraction, power, hparts, hdigits, hshort, hfraction, hpower⟩ := hnumeral
  obtain ⟨sign, negative, hsign, htext⟩ : ∃ (sign : List Char) (negative : Bool),
      (sign = if negative then ['-'] else []) ∧ s.toList = sign ++ unsigned.toList := by
    subst hs
    split
    · exact ⟨['-'], true, rfl, by simp⟩
    · exact ⟨[], false, rfl, rfl⟩
  obtain ⟨w, hw⟩ := exists_number hsign hdigits hshort hfraction hpower
  refine ⟨w, fun rest hrest => ?_⟩
  rw [htext, hparts]
  simpa only [List.append_assoc] using hw rest hrest

end ContractModel.Json.Binary64
