import ContractModel.Json.Parser
import ContractModel.Json.Printer
import ContractModel.Proofs.Json.AnyValue
import ContractModel.Proofs.Text.Numerals

/-! # Numbers in texts

A number is a sign, digits, a fraction and a power of ten. It ends where none of them goes on, so
what follows it in a text plays no role, and every number that is printed can be read.
-/

namespace ContractModel.Json.Parser

/-- The sign in front of a number. -/
def signPart : List Char → Bool × List Char
  | '-' :: cs => (true, cs)
  | cs => (false, cs)

def fractionPart : List Char → Option (Option (List Nat) × List Char)
  | '.' :: cs =>
    match digitRun cs with
    | ([], _) => none
    | (ds, rest) => some (some ds, rest)
  | cs => some (none, cs)

def powerPart : List Char → Option (Option (Bool × List Nat) × List Char)
  | 'e' :: cs | 'E' :: cs => (exponentPart cs).map fun (down, ds, rest) => (some (down, ds), rest)
  | cs => some (none, cs)

theorem fractionPart_of_ne {cs : List Char} (h : ∀ rest, cs ≠ '.' :: rest) :
    fractionPart cs = some (none, cs) := by
  unfold fractionPart
  split
  · exact absurd rfl (h _)
  · rfl

theorem fractionPart_point (cs : List Char) : fractionPart ('.' :: cs) =
    if (digitRun cs).1 = [] then none else some (some (digitRun cs).1, (digitRun cs).2) := by
  rw [fractionPart]
  generalize digitRun cs = q
  obtain ⟨_ | ⟨d, ds⟩, rest⟩ := q <;> rfl

theorem powerPart_of_ne {cs : List Char} (he : ∀ rest, cs ≠ 'e' :: rest)
    (hE : ∀ rest, cs ≠ 'E' :: rest) : powerPart cs = some (none, cs) := by
  unfold powerPart
  split
  · exact absurd rfl (he _)
  · exact absurd rfl (hE _)
  · rfl

/-- The number of its parts. -/
def ofParts (negative : Bool) (whole : List Nat) (fraction : Option (List Nat))
    (power : Option (Bool × List Nat)) : Written :=
  let n := whole.foldl (fun n d => n * 10 + d) 0
  if fraction.isNone && power.isNone then
    if ¬ negative ∧ n ≤ Text.maxWord then .number (.int n)
    else if negative ∧ n ≠ 0 ∧ n ≤ Text.maxInt + 1 then .number (.int (-n))
    else float negative whole (fraction.getD []) power
  else float negative whole (fraction.getD []) power

/-- The kind of a number is chosen before it is returned. -/
theorem some_ofParts (negative : Bool) (whole : List Nat) (fraction : Option (List Nat))
    (power : Option (Bool × List Nat)) (cs : List Char) :
    some (ofParts negative whole fraction power, cs) =
      if (fraction.isNone && power.isNone) = true then
        if ¬negative = true ∧ whole.foldl (fun n d => n * 10 + d) 0 ≤ Text.maxWord then
          some (Written.number (.int (whole.foldl (fun n d => n * 10 + d) 0 : Nat)), cs)
        else if negative = true ∧ whole.foldl (fun n d => n * 10 + d) 0 ≠ 0 ∧
            whole.foldl (fun n d => n * 10 + d) 0 ≤ Text.maxInt + 1 then
          some (Written.number (.int (-(whole.foldl (fun n d => n * 10 + d) 0 : Nat))), cs)
        else some (float negative whole (fraction.getD []) power, cs)
      else some (float negative whole (fraction.getD []) power, cs) := by
  unfold ofParts
  dsimp only
  split
  · split
    · rfl
    · split <;> rfl
  · rfl

/-- A number is read part by part. -/
theorem number_eq (cs : List Char) : number cs =
    if (digitRun (signPart cs).2).1.isEmpty || (digitRun (signPart cs).2).1.head? == some 0 &&
      (digitRun (signPart cs).2).1.length != 1 then none
    else (fractionPart (digitRun (signPart cs).2).2).bind fun f => (powerPart f.2).bind fun e =>
      some (ofParts (signPart cs).1 (digitRun (signPart cs).2).1 f.1 e.1, e.2) := by
  unfold number
  split
  next negative cs' heq =>
  have hsign : signPart cs = (negative, cs') := heq
  rw [hsign]
  dsimp only
  generalize (digitRun cs').1 = whole
  generalize (digitRun cs').2 = cs
  split
  · rfl
  · simp only [Option.pure_def, ← some_ofParts]
    split
    · next rest =>
      rw [fractionPart_point]
      split
      · next hrun =>
        rw [hrun]
        rfl
      · next ds rest' hne hrun =>
        rw [hrun, if_neg hne]
        dsimp only [Option.bind_some, Option.bind_eq_bind]
        split
        · rfl
        · rfl
        · next he hE => rw [powerPart_of_ne he hE, Option.bind_some]
    · next hdot =>
      rw [fractionPart_of_ne hdot]
      dsimp only [Option.bind_some, Option.bind_eq_bind]
      split
      · rfl
      · rfl
      · next he hE => rw [powerPart_of_ne he hE, Option.bind_some]

/-! ## What a number is made of -/

/-- The text behind a number does not go on with it. -/
def Ends (rest : List Char) : Prop :=
  ∀ c ∈ rest.head?, ¬ c.isDigit ∧ c ≠ '.' ∧ c ≠ 'e' ∧ c ≠ 'E'

def IsDigits (cs : List Char) : Prop := cs ≠ [] ∧ ∀ c ∈ cs, c.isDigit

/-- A fraction, or nothing. -/
def IsFraction (cs : List Char) : Prop := cs = [] ∨ ∃ ds, IsDigits ds ∧ cs = '.' :: ds

/-- A power of ten, or nothing. -/
def IsPower (cs : List Char) : Prop :=
  cs = [] ∨ ∃ sign ds, (sign = '+' ∨ sign = '-') ∧ IsDigits ds ∧ cs = 'e' :: sign :: ds

variable {cs ds rest sign whole fraction power : List Char} {w : Written}

theorem digitRun_append (hds : ∀ c ∈ ds, c.isDigit) (hrest : ∀ c ∈ rest.head?, ¬ c.isDigit) :
    digitRun (ds ++ rest) = (ds.map fun c => c.toNat - 48, rest) := by
  have hstop : rest.takeWhile Char.isDigit = [] ∧ rest.dropWhile Char.isDigit = rest := by
    cases rest with
    | nil => exact ⟨rfl, rfl⟩
    | cons c rest =>
      have hc : c.isDigit = false := by simpa using hrest c rfl
      exact ⟨List.takeWhile_cons_of_neg (by simp [hc]), List.dropWhile_cons_of_neg (by simp [hc])⟩
  rw [digitRun, List.takeWhile_append_of_pos hds, List.dropWhile_append_of_pos hds, hstop.1,
    hstop.2, List.append_nil]

theorem Ends.noDigit (h : Ends rest) : ∀ c ∈ rest.head?, ¬ c.isDigit := fun c hc => (h c hc).1

theorem ne_cons_of_head {c : Char} (h : ∀ c' ∈ cs.head?, c' ≠ c) : ∀ rest, cs ≠ c :: rest := by
  rintro rest rfl
  exact h c rfl rfl

theorem powerPart_append (h : IsPower power) :
    ∃ p, ∀ rest, Ends rest → powerPart (power ++ rest) = some (p, rest) := by
  rcases h with rfl | ⟨sign, ds, hsign, ⟨hne, hds⟩, rfl⟩
  · refine ⟨none, fun rest hrest => ?_⟩
    exact powerPart_of_ne (ne_cons_of_head fun c hc => (hrest c hc).2.2.1)
      (ne_cons_of_head fun c hc => (hrest c hc).2.2.2)
  · refine ⟨some (sign = '-', ds.map fun c => c.toNat - 48), fun rest hrest => ?_⟩
    have hrun := digitRun_append hds hrest.noDigit
    obtain ⟨d, ds, rfl⟩ := List.exists_cons_of_ne_nil hne
    rw [List.cons_append] at hrun
    rcases hsign with rfl | rfl <;>
      simp [powerPart, exponentPart, hrun]

theorem fractionPart_append (h : IsFraction fraction) : ∃ f, ∀ rest, (∀ c ∈ rest.head?,
    ¬ c.isDigit ∧ c ≠ '.') → fractionPart (fraction ++ rest) = some (f, rest) := by
  rcases h with rfl | ⟨ds, ⟨hne, hds⟩, rfl⟩
  · exact ⟨none, fun rest hrest =>
      fractionPart_of_ne (ne_cons_of_head fun c hc => (hrest c hc).2)⟩
  · refine ⟨some (ds.map fun c => c.toNat - 48), fun rest hrest => ?_⟩
    rw [List.cons_append, fractionPart_point, digitRun_append hds fun c hc => (hrest c hc).1]
    simp [hne]

/-- What a number is read as, if its sign and its digits in front of the point are cut off. -/
theorem number_eq_of_whole {negative : Bool} (hsign : signPart cs = (negative, whole ++ rest))
    (hdigits : IsDigits whole) (hshort : Text.IsShort whole)
    (hrest : ∀ c ∈ rest.head?, ¬ c.isDigit) :
    number cs = (fractionPart rest).bind fun f => (powerPart f.2).bind fun e =>
      some (ofParts negative (whole.map fun c => c.toNat - 48) f.1 e.1, e.2) := by
  have hgood : ((whole.map fun c => c.toNat - 48).isEmpty ||
      (whole.map fun c => c.toNat - 48).head? == some 0 &&
        (whole.map fun c => c.toNat - 48).length != 1) = false := by
    obtain ⟨c, cs, rfl⟩ := List.exists_cons_of_ne_nil hdigits.1
    have hc := Text.isDigit_iff_toNat.1 (hdigits.2 c List.mem_cons_self)
    by_cases hzero : c = '0'
    · rw [hshort (by rw [hzero]; rfl)]
      rfl
    · have hne : c.toNat - 48 ≠ 0 := by
        intro heq
        have heq : c.toNat = 48 := by omega
        exact hzero (by rw [← Char.ofNat_toNat c, heq])
      simp [hne]
  rw [number_eq, hsign]
  dsimp only
  rw [digitRun_append hdigits.2 hrest, hgood]
  rfl

theorem signPart_append {negative : Bool} (hsign : sign = if negative then ['-'] else [])
    (hdigits : IsDigits whole) (rest : List Char) :
    signPart (sign ++ (whole ++ rest)) = (negative, whole ++ rest) := by
  cases negative with
  | true => rw [hsign, if_pos rfl, List.singleton_append, signPart]
  | false =>
    rw [hsign, if_neg (by decide), List.nil_append]
    obtain ⟨c, cs, rfl⟩ := List.exists_cons_of_ne_nil hdigits.1
    have hc : c ≠ '-' := by
      rintro rfl
      exact absurd (hdigits.2 '-' List.mem_cons_self) (by decide)
    unfold signPart
    split
    · next heq => exact absurd (List.cons.inj heq).1 hc
    · rfl

/-- A number is read whatever follows it, and not further. -/
theorem exists_number {negative : Bool} (hsign : sign = if negative then ['-'] else [])
    (hdigits : IsDigits whole) (hshort : Text.IsShort whole) (hfraction : IsFraction fraction)
    (hpower : IsPower power) : ∃ w, ∀ rest, Ends rest →
      number (sign ++ (whole ++ (fraction ++ (power ++ rest)))) = some (w, rest) := by
  obtain ⟨f, hf⟩ := fractionPart_append hfraction
  obtain ⟨p, hp⟩ := powerPart_append hpower
  refine ⟨ofParts negative (whole.map fun c => c.toNat - 48) f p, fun rest hrest => ?_⟩
  have hbehindPoint : ∀ c ∈ (power ++ rest).head?, ¬ c.isDigit ∧ c ≠ '.' := by
    rcases hpower with rfl | ⟨_, _, -, -, rfl⟩
    · exact fun c hc => ⟨(hrest c hc).1, (hrest c hc).2.1⟩
    · rintro c ⟨⟩
      decide
  have hbehind : ∀ c ∈ (fraction ++ (power ++ rest)).head?, ¬ c.isDigit := by
    rcases hfraction with rfl | ⟨_, -, rfl⟩
    · exact fun c hc => (hbehindPoint c hc).1
    · rintro c ⟨⟩
      decide
  rw [number_eq_of_whole (signPart_append hsign hdigits _) hdigits hshort hbehind,
    hf _ hbehindPoint, Option.bind_some, hp _ hrest]
  rfl

/-! ## Integers -/

theorem foldl_digits {n acc : Nat} (h : Text.readDigits 10 acc cs = some n) :
    (cs.map fun c => c.toNat - 48).foldl (fun n d => n * 10 + d) acc = n := by
  induction cs generalizing acc with
  | nil => exact Option.some.inj h
  | cons c cs ih =>
    obtain ⟨d, hd, h⟩ := Option.bind_eq_some_iff.1 h
    have hvalue : c.toNat - 48 = d := by
      have := Text.digitValue_eq_some_iff.1 hd
      omega
    rw [List.map_cons, List.foldl_cons, hvalue]
    exact ih h

theorem isDigits_digits (n : Nat) : IsDigits (Text.digits 10 n) := by
  refine ⟨Text.digits_ne_nil 10 n, fun c hc => ?_⟩
  obtain ⟨d, hd, rfl⟩ := Text.exists_of_mem_digits (by decide) hc
  rw [← Text.isSome_digitValue_ten_iff, Text.digitValue_digitChar hd (by omega)]
  rfl

theorem isShort_decimal (n : Nat) : Text.IsShort (Text.digits 10 n) :=
  Text.isShort_digits (by decide) (by decide) n

theorem number_integer (negative : Bool) (hsign : sign = if negative then ['-'] else [])
    (n : Nat) (hrest : Ends rest) : number (sign ++ (Text.digits 10 n ++ rest)) =
      some (ofParts negative ((Text.digits 10 n).map fun c => c.toNat - 48) none none, rest) := by
  rw [number_eq_of_whole (signPart_append hsign (isDigits_digits n) rest) (isDigits_digits n)
      (isShort_decimal n) hrest.noDigit,
    fractionPart_of_ne (ne_cons_of_head fun c hc => (hrest c hc).2.1), Option.bind_some,
    powerPart_of_ne (ne_cons_of_head fun c hc => (hrest c hc).2.2.1)
      (ne_cons_of_head fun c hc => (hrest c hc).2.2.2)]
  rfl

/-- An integer of 64 bits is read as itself. -/
theorem number_signedDecimal {i : Int} (hi : (Number.int i).Fits) (hrest : Ends rest) :
    number ((Text.signedDecimal i).toList ++ rest) = some (.number (.int i), rest) := by
  have hvalue (n : Nat) :
      ((Text.digits 10 n).map fun c => c.toNat - 48).foldl (fun n d => n * 10 + d) 0 = n :=
    foldl_digits (Text.readDigits_digits (by decide) (by decide) n)
  cases i with
  | ofNat n =>
    have hn : n ≤ Text.maxWord := by
      have : (n : Int) < 0x10000000000000000 := hi.2
      rw [Text.maxWord]
      omega
    rw [Text.signedDecimal, Text.decimal, String.toList_ofList]
    refine (number_integer false rfl n hrest).trans ?_
    simp [ofParts, hvalue, hn]
  | negSucc n =>
    have hn : n ≤ Text.maxInt := by
      have : -0x8000000000000000 ≤ Int.negSucc n := hi.1
      rw [Text.maxInt]
      omega
    have htext : (Text.signedDecimal (Int.negSucc n)).toList = ['-'] ++ Text.digits 10 (n + 1) := by
      simp [Text.signedDecimal, Text.decimal]
    rw [htext, List.append_assoc]
    refine (number_integer true rfl (n + 1) hrest).trans ?_
    simp [ofParts, hvalue, hn, Int.negSucc_eq]

end ContractModel.Json.Parser
