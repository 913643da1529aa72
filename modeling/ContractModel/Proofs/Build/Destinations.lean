import ContractModel.Build.Links
import ContractModel.Proofs.Link.SlotNumbers

/-! # Destinations as numbers

A destination in hexadecimal is set in the normal form of its number, a decimal one as it is
written. So two of them are told apart as their numbers are unless a decimal one is involved that
is not in normal form itself.
-/

namespace ContractModel.BuildModel

open Slot

/-- Two numerals that are set to different texts for one number, or to one text for different
numbers. -/
inductive Confused : String → String → Prop
  /-- One number in decimal, with different zeros in front. -/
  | zeros {v w : String} {n : Nat} (hv : Spells 10 v.toList n) (hw : Spells 10 w.toList n)
      (hne : v ≠ w) : Confused v w
  /-- One number in hexadecimal, and in more than one decimal digit. -/
  | radices {v w : String} {n : Nat} (hv : Spells 16 v.toList n) (hw : Spells 10 w.toList n)
      (hlong : w.length ≠ 1) : Confused v w
  /-- The hexadecimal digits of one number are the decimal ones of another. -/
  | digits {v : String} {m n : Nat} (hv : Spells 16 v.toList m)
      (hw : Spells 10 (Text.hexadecimal m).toList n) (hne : m ≠ n) :
      Confused v (Text.hexadecimal m)

variable {m : BuildModel} {v w text : String} {a b n : Nat}

/-- No unit has the text for its primary contract. -/
def Lacks (m : BuildModel) (text : String) : Prop := ∀ u ∈ m.values, u.primaryContract ≠ text

theorem addressOf?_of_lacks (h : m.Lacks text) : m.addressOf? text = none := by
  have hnone : (m.filter fun _ u => u.primaryContract == text).values = [] := by
    rw [SortedMap.values, SortedMap.filter, List.map_eq_nil_iff, List.filter_eq_nil_iff]
    intro e he
    simpa using h e.2 (List.mem_map_of_mem he)
  rw [addressOf?, hnone]
  rfl

theorem destination_of_hexadecimal (h : m.Lacks v) (hv : Spells 16 v.toList n) :
    m.destination true v = Text.hexadecimal n := by
  have hhex : isHex v := isHex_iff.2 ⟨n, hv⟩
  simp [destination, addressOf?_of_lacks h, hhex, normalize_of_spells hv]

theorem destination_of_decimal (h : m.Lacks v) (hv : Spells 10 v.toList n) :
    m.destination true v = v := by
  have hhex : ¬ isHex v := fun hhex => by
    obtain ⟨n', hv'⟩ := isHex_iff.1 hhex
    exact absurd (hv.unique hv').1 (by decide)
  simp [destination, addressOf?_of_lacks h, hhex]

/-- Of decimal numerals only single digits are in normal form. -/
theorem hexadecimal_eq_iff (hw : Spells 10 w.toList n) :
    Text.hexadecimal n = w ↔ w.length = 1 := by
  obtain ⟨hne, hread⟩ := Text.readNumeral_eq_some_iff.1 (spells_ten_iff.1 hw)
  constructor
  · rintro rfl
    rw [Text.hexadecimal, String.toList_ofList] at hne hread
    have hlength := Text.length_le_one_of_readDigits
      (Text.isShort_digits (by decide) (by decide) n) hread
      (Text.readDigits_digits (by decide) (by decide) n)
    have hpos := List.length_pos_iff.2 hne
    rw [Text.hexadecimal, String.length_ofList]
    omega
  · intro hlength
    obtain ⟨c, hc⟩ := List.length_eq_one_iff.1 ((String.length_toList).trans hlength)
    rw [hc] at hread
    obtain ⟨d, hd, hvalue⟩ := Option.bind_eq_some_iff.1 hread
    obtain rfl : 0 * 10 + d = n := Option.some.inj hvalue
    obtain ⟨rfl, hlt⟩ := Text.digitChar_of_digitValue hd
    rw [Text.hexadecimal, Text.digits_of_lt (by omega), Nat.zero_mul, Nat.zero_add, ← hc,
      String.ofList_toList]

theorem not_confused_of_hexadecimal (hw : Spells 16 w.toList b) : ¬ Confused v w := by
  rintro (⟨-, hw', -⟩ | ⟨-, hw', -⟩ | ⟨-, hw', -⟩) <;>
    exact absurd (hw.unique hw').1 (by decide)

theorem confused_iff_of_decimal (hv : Spells 10 v.toList a) (hw : Spells 10 w.toList b) :
    Confused v w ↔ a = b ∧ v ≠ w := by
  constructor
  · rintro (⟨hv', hw', hne⟩ | ⟨hv', -, -⟩ | ⟨hv', -, -⟩)
    · exact ⟨(hv.unique hv').2.trans (hw'.unique hw).2, hne⟩
    · exact absurd (hv.unique hv').1 (by decide)
    · exact absurd (hv.unique hv').1 (by decide)
  · rintro ⟨rfl, hne⟩
    exact .zeros hv hw hne

theorem confused_iff_of_radices (hv : Spells 16 v.toList a) (hw : Spells 10 w.toList b) :
    Confused v w ↔ a = b ∧ w.length ≠ 1 ∨ a ≠ b ∧ Text.hexadecimal a = w := by
  constructor
  · rintro (⟨hv', -, -⟩ | ⟨hv', hw', hlong⟩ | ⟨hv', hw', hne⟩)
    · exact absurd (hv.unique hv').1 (by decide)
    · exact .inl ⟨(hv.unique hv').2.trans (hw'.unique hw).2, hlong⟩
    · obtain rfl := (hv.unique hv').2
      exact .inr ⟨(hw.unique hw').2 ▸ hne, rfl⟩
  · rintro (⟨rfl, hlong⟩ | ⟨hne, rfl⟩)
    · exact .radices hv hw hlong
    · exact .digits hv hw hne

/-- Two destinations are set to the same text exactly if they denote the same number. -/
def StoredByValue (m : BuildModel) (v w : String) : Prop :=
  m.destination true v = m.destination true w ↔ SameNumber v w

theorem storedByValue_comm : StoredByValue m v w ↔ StoredByValue m w v := by
  rw [StoredByValue, StoredByValue, eq_comm, sameNumber_comm]

theorem storedByValue_iff_of_radices (hlacks : m.Lacks v) (hlacks' : m.Lacks w)
    (hv : Spells 16 v.toList a) (hw : Spells 10 w.toList b) :
    StoredByValue m v w ↔ ¬ Confused v w := by
  rw [StoredByValue, destination_of_hexadecimal hlacks hv, destination_of_decimal hlacks' hw,
    sameNumber_iff ⟨16, hv⟩ ⟨10, hw⟩, confused_iff_of_radices hv hw]
  by_cases heq : a = b
  · subst heq
    simp [hexadecimal_eq_iff hw]
  · simp [heq]

/-- Destinations are stored by value exactly if they are not confused. -/
theorem storedByValue_iff_not_confused (hlacks : m.Lacks v) (hlacks' : m.Lacks w)
    (hv : Denotes v a) (hw : Denotes w b) :
    StoredByValue m v w ↔ ¬ Confused v w ∧ ¬ Confused w v := by
  obtain ⟨radix, hv⟩ := hv
  obtain ⟨radix', hw⟩ := hw
  rcases hv.radix_eq with rfl | rfl <;> rcases hw.radix_eq with rfl | rfl
  · rw [StoredByValue, destination_of_decimal hlacks hv, destination_of_decimal hlacks' hw,
      sameNumber_iff ⟨10, hv⟩ ⟨10, hw⟩, confused_iff_of_decimal hv hw,
      confused_iff_of_decimal hw hv]
    have heq : v = w → a = b := by
      rintro rfl
      exact (hv.unique hw).2
    grind
  · rw [storedByValue_comm, storedByValue_iff_of_radices hlacks' hlacks hw hv,
      and_iff_right (not_confused_of_hexadecimal hw)]
  · rw [storedByValue_iff_of_radices hlacks hlacks' hv hw,
      and_iff_left (not_confused_of_hexadecimal hv)]
  · rw [StoredByValue, destination_of_hexadecimal hlacks hv,
      destination_of_hexadecimal hlacks' hw, sameNumber_iff ⟨16, hv⟩ ⟨16, hw⟩]
    exact iff_of_true ⟨Text.hexadecimal_injective, congrArg _⟩
      ⟨not_confused_of_hexadecimal hw, not_confused_of_hexadecimal hv⟩

/-- Capitals and zeros in hexadecimal, and a single digit in decimal. -/
theorem storedByValue_seven : StoredByValue ∅ "0x007" "7" ∧ StoredByValue ∅ "0XfF" "0x0ff" := by
  have hlacks (text : String) : Lacks ∅ text := nofun
  have hseven : Spells 16 "0x007".toList 7 := .hexadecimal (.inl rfl) (by decide +kernel)
  have hdigit : Spells 10 "7".toList 7 := .decimal (by decide +kernel)
  have hcapital : Spells 16 "0XfF".toList 255 := .hexadecimal (.inr rfl) (by decide +kernel)
  have hsmall : Spells 16 "0x0ff".toList 255 := .hexadecimal (.inl rfl) (by decide +kernel)
  refine ⟨(storedByValue_iff_not_confused (hlacks _) (hlacks _) ⟨16, hseven⟩ ⟨10, hdigit⟩).2
      ⟨?_, not_confused_of_hexadecimal hseven⟩,
    (storedByValue_iff_not_confused (hlacks _) (hlacks _) ⟨16, hcapital⟩ ⟨16, hsmall⟩).2
      ⟨not_confused_of_hexadecimal hsmall, not_confused_of_hexadecimal hcapital⟩⟩
  rw [confused_iff_of_radices hseven hdigit]
  decide +kernel

/-- Sixteen and ten are set to the same text, and ten in the two radices to different ones. -/
theorem not_storedByValue_ten :
    (∅ : BuildModel).destination true "0x10" = (∅ : BuildModel).destination true "10" ∧
      ¬ StoredByValue ∅ "0x10" "10" ∧ ¬ StoredByValue ∅ "0xa" "10" := by
  have hten : Denotes "10" 10 := ⟨10, .decimal (by decide +kernel)⟩
  have hsixteen : Denotes "0x10" 16 := ⟨16, .hexadecimal (.inl rfl) (by decide +kernel)⟩
  have hletter : Denotes "0xa" 10 := ⟨16, .hexadecimal (.inl rfl) (by decide +kernel)⟩
  unfold StoredByValue
  rw [sameNumber_iff hsixteen hten, sameNumber_iff hletter hten]
  decide +kernel

end ContractModel.BuildModel
