import ContractModel.Link.Slot
import ContractModel.Proofs.Run
import ContractModel.Proofs.Text.Numerals

/-! # Slots as numbers

A slot is given in decimal, or in hexadecimal behind `0x`, with any zeros in front. Its normal form
is the one short lowercase numeral of the same number, so normal forms are compared as numbers are,
and the slot that a layout reports in decimal has the same one.
-/

namespace ContractModel.Slot

/-- The text is a numeral of the radix that denotes the number: decimal digits, or hexadecimal ones
behind their mark. -/
inductive Spells : Nat → List Char → Nat → Prop
  | decimal {cs : List Char} {n : Nat} (h : Text.readNumeral 10 cs = some n) : Spells 10 cs n
  | hexadecimal {x : Char} {ds : List Char} {n : Nat} (hx : x = 'x' ∨ x = 'X')
      (h : Text.readNumeral 16 ds = some n) : Spells 16 ('0' :: x :: ds) n

/-- The text is a numeral that denotes the number. -/
def Denotes (s : String) (n : Nat) : Prop := ∃ radix, Spells radix s.toList n

/-- The texts are numerals for one number. -/
def SameNumber (s t : String) : Prop := ∃ n, Denotes s n ∧ Denotes t n

variable {radix m n : Nat} {x : Char} {cs ds : List Char} {s t v w : String}

section Numerals

theorem Spells.radix_eq (h : Spells radix cs n) : radix = 10 ∨ radix = 16 := by
  cases h with
  | decimal h => exact .inl rfl
  | hexadecimal hx h => exact .inr rfl

theorem spells_ten_iff : Spells 10 cs n ↔ Text.readNumeral 10 cs = some n := by
  refine ⟨fun h => ?_, .decimal⟩
  cases h
  assumption

theorem spells_sixteen_iff : Spells 16 cs n ↔ ∃ x ds, (x = 'x' ∨ x = 'X') ∧ cs = '0' :: x :: ds ∧
    Text.readNumeral 16 ds = some n := by
  constructor
  · intro h
    cases h with
    | hexadecimal hx h => exact ⟨_, _, hx, rfl, h⟩
  · rintro ⟨x, ds, hx, rfl, h⟩
    exact .hexadecimal hx h

theorem exists_spells_ten_iff : (∃ n, Spells 10 cs n) ↔ cs ≠ [] ∧ ∀ c ∈ cs, c.isDigit := by
  simp only [spells_ten_iff, Text.exists_readNumeral_iff, Text.isSome_digitValue_ten_iff]

theorem exists_spells_sixteen_iff : (∃ n, Spells 16 cs n) ↔
    ∃ x ds, (x = 'x' ∨ x = 'X') ∧ cs = '0' :: x :: ds ∧ ds ≠ [] ∧
      ∀ c ∈ ds, c.isDigit ∨ ('a' ≤ c ∧ c ≤ 'f') ∨ 'A' ≤ c ∧ c ≤ 'F' := by
  simp only [← Text.isSome_digitValue_sixteen_iff, ← Text.exists_readNumeral_iff,
    spells_sixteen_iff]
  constructor
  · rintro ⟨n, x, ds, hx, hcs, h⟩
    exact ⟨x, ds, hx, hcs, n, h⟩
  · rintro ⟨x, ds, hx, hcs, n, h⟩
    exact ⟨n, x, ds, hx, hcs, h⟩

/-- The mark is not a decimal digit. -/
theorem not_spells_ten_mark (hx : x = 'x' ∨ x = 'X') : ¬ Spells 10 ('0' :: x :: ds) n := by
  intro h
  have hdigits := (exists_spells_ten_iff.1 ⟨n, h⟩).2 x (by simp)
  rcases hx with rfl | rfl <;> exact absurd hdigits (by decide)

theorem Spells.unique {radix' : Nat} (h : Spells radix cs m) (h' : Spells radix' cs n) :
    radix = radix' ∧ m = n := by
  cases h with
  | decimal h =>
    cases h' with
    | decimal h' => exact ⟨rfl, Option.some.inj (h.symm.trans h')⟩
    | hexadecimal hx h' => exact absurd (.decimal h) (not_spells_ten_mark hx)
  | hexadecimal hx h =>
    cases h' with
    | decimal h' => exact absurd (.decimal h') (not_spells_ten_mark hx)
    | hexadecimal _ h' => exact ⟨rfl, Option.some.inj (h.symm.trans h')⟩

theorem Denotes.unique (h : Denotes s m) (h' : Denotes s n) : m = n := by
  obtain ⟨radix, h⟩ := h
  obtain ⟨radix', h'⟩ := h'
  exact (h.unique h').2

theorem sameNumber_iff (hs : Denotes s m) (ht : Denotes t n) : SameNumber s t ↔ m = n := by
  constructor
  · rintro ⟨k, hs', ht'⟩
    exact (hs.unique hs').trans (ht'.unique ht)
  · rintro rfl
    exact ⟨m, hs, ht⟩

theorem sameNumber_comm : SameNumber s t ↔ SameNumber t s :=
  exists_congr fun _ => and_comm

end Numerals

section Normal

theorem isDecimal_iff : isDecimal s ↔ ∃ n, Spells 10 s.toList n := by
  simp only [spells_ten_iff, Text.exists_readNumeral_iff]
  simp [isDecimal]

theorem hexDigits?_eq_some_iff :
    hexDigits? s = some ds ↔ ∃ x, (x = 'x' ∨ x = 'X') ∧ s.toList = '0' :: x :: ds := by
  unfold hexDigits?
  split
  · next h => simp [h]
  · next h => simp [h]
  · next h h' =>
    simp only [reduceCtorEq, false_iff]
    rintro ⟨x, rfl | rfl, hs⟩
    · exact h _ hs
    · exact h' _ hs

theorem isHex_iff : isHex s ↔ ∃ n, Spells 16 s.toList n := by
  have hdigits : isHex s ↔ ∃ ds, hexDigits? s = some ds ∧ ds ≠ [] ∧
      ∀ c ∈ ds, (Text.digitValue 16 c).isSome := by
    unfold isHex
    split <;> simp_all
  rw [hdigits]
  simp only [hexDigits?_eq_some_iff, ← Text.exists_readNumeral_iff, spells_sixteen_iff]
  constructor
  · rintro ⟨ds, ⟨x, hx, hs⟩, n, h⟩
    exact ⟨n, x, ds, hx, hs, h⟩
  · rintro ⟨n, x, ds, hx, hs, h⟩
    exact ⟨ds, ⟨x, hx, hs⟩, n, h⟩

theorem decimalToHex_of_spells (h : Spells 10 s.toList n) :
    decimalToHex s = some (Text.hexadecimal n) := by
  rw [decimalToHex, Text.readUnbounded_of_readNumeral (spells_ten_iff.1 h), Option.map_some]

theorem normalize_of_spells (h : Spells radix s.toList n) :
    normalize s = some (Text.hexadecimal n) := by
  generalize hcs : s.toList = cs at h
  cases h with
  | decimal h =>
    subst hcs
    have hdecimal : isDecimal s := isDecimal_iff.2 ⟨n, .decimal h⟩
    have hhex : ¬ isHex s := fun hhex => by
      obtain ⟨n', h'⟩ := isHex_iff.1 hhex
      exact absurd ((Spells.decimal h).unique h').1 (by decide)
    rw [normalize, if_neg hhex, if_pos hdecimal, decimalToHex_of_spells (.decimal h)]
  | @hexadecimal x ds _ hx h =>
    have hhex : isHex s := isHex_iff.2 ⟨n, hcs ▸ .hexadecimal hx h⟩
    have hread : Text.readUnbounded 16 (String.ofList (s.toList.drop 2)) = some n :=
      Text.readUnbounded_of_readNumeral (by rwa [String.toList_ofList, hcs])
    rw [normalize, if_pos hhex, hread, Option.map_some]

/-- Exactly the numerals have a normal form, that of their number. -/
theorem normalize_eq_some_iff :
    normalize s = some t ↔ ∃ n, Denotes s n ∧ t = Text.hexadecimal n := by
  constructor
  · intro h
    have hnumeral : ∃ radix n, Spells radix s.toList n := by
      unfold normalize at h
      split at h
      · next hhex => exact ⟨16, isHex_iff.1 hhex⟩
      · split at h
        · next hdecimal => exact ⟨10, isDecimal_iff.1 hdecimal⟩
        · cases h
    obtain ⟨radix, n, hn⟩ := hnumeral
    rw [normalize_of_spells hn] at h
    cases h
    exact ⟨n, ⟨radix, hn⟩, rfl⟩
  · rintro ⟨n, ⟨radix, hn⟩, rfl⟩
    exact normalize_of_spells hn

/-- A lowercase hexadecimal numeral without a mark and without zeros in front. -/
structure IsNormal (t : String) (n : Nat) : Prop where
  lowercase : ∀ c ∈ t.toList, c.isDigit ∨ 'a' ≤ c ∧ c ≤ 'f'
  short : Text.IsShort t.toList
  denotes : Text.readNumeral 16 t.toList = some n

/-- Each number has one normal form. -/
theorem isNormal_iff : IsNormal t n ↔ t = Text.hexadecimal n := by
  constructor
  · rintro ⟨hlowercase, hshort, hdenotes⟩
    obtain ⟨hne, hread⟩ := Text.readNumeral_eq_some_iff.1 hdenotes
    have hdigits := Text.digits_of_readLowercase (by decide) (by decide) hne hshort
      (fun c hc => Text.exists_digitChar_of_isLowercase (hlowercase c hc)) hread
    rw [Text.hexadecimal, hdigits, String.ofList_toList]
  · rintro rfl
    constructor <;> rw [Text.hexadecimal, String.toList_ofList]
    · intro c hc
      obtain ⟨d, hd, rfl⟩ := Text.exists_of_mem_digits (by decide) hc
      exact Text.isLowercase_digitChar d hd
    · exact Text.isShort_digits (by decide) (by decide) n
    · exact Text.readNumeral_eq_some_iff.2
        ⟨Text.digits_ne_nil 16 n, Text.readDigits_digits (by decide) (by decide) n⟩

theorem normalize_eq_iff (hv : ∃ m, Denotes v m) : normalize v = normalize w ↔ SameNumber v w := by
  obtain ⟨m, hv⟩ := hv
  have hnormal : normalize v = some (Text.hexadecimal m) := normalize_eq_some_iff.2 ⟨m, hv, rfl⟩
  rw [hnormal, eq_comm, normalize_eq_some_iff]
  constructor
  · rintro ⟨n, hw, heq⟩
    exact ⟨m, hv, Text.hexadecimal_injective heq ▸ hw⟩
  · rintro ⟨n, hv', hw⟩
    exact ⟨n, hw, by rw [hv.unique hv']⟩

end Normal

section Only

variable {α : Type} {read : String → Option α} {missing : InputFault}
  {unread : String → Inconsistency} {several : List String → Inconsistency} {texts : List String}

/-- Reads the only text of a list, repetitions aside. -/
def readOnly (read : String → Option α) (missing : InputFault) (unread : String → Inconsistency)
    (several : List String → Inconsistency) (texts : List String) : Except Error α :=
  match SortedMap.distinct texts with
  | [] => .error (.input missing)
  | [text] =>
    match read text with
    | some a => .ok a
    | none => .error (.inconsistency (unread text))
  | texts => .error (.inconsistency (several texts))

theorem readOnly_nil : readOnly read missing unread several [] = .error (.input missing) := rfl

theorem readOnly_of_forall_eq {a : α} (hs : s ∈ texts) (h : ∀ t ∈ texts, t = s)
    (hread : read s = some a) : readOnly read missing unread several texts = .ok a := by
  have hdistinct : SortedMap.distinct texts = [s] := by
    refine List.perm_singleton.1 ((List.perm_ext_iff_of_nodup (SortedMap.nodup_keys _)
      (List.nodup_cons.2 ⟨List.not_mem_nil, List.nodup_nil⟩)).2 fun t => ?_)
    rw [← SortedMap.distinct, SortedMap.mem_distinct_iff, List.mem_singleton]
    exact ⟨h t, fun heq => heq ▸ hs⟩
  rw [readOnly, hdistinct]
  simp only [hread]

theorem readOnly_of_ne (hs : s ∈ texts) (ht : t ∈ texts) (hne : s ≠ t) :
    ∃ fault, readOnly read missing unread several texts = .error (.inconsistency fault) := by
  rw [← SortedMap.mem_distinct_iff] at hs ht
  unfold readOnly
  generalize SortedMap.distinct texts = distinct at hs ht
  rcases distinct with - | ⟨text, - | ⟨other, distinct⟩⟩
  · cases hs
  · exact absurd ((List.mem_singleton.1 hs).trans (List.mem_singleton.1 ht).symm) hne
  · exact ⟨_, rfl⟩

end Only

section Layout

variable {contract name : String} {layout : Json} {storage : List Json}

/-- A layout has an entry for the variable with the slot, as text or number. -/
def IsListed (name : String) (storage : List Json) (s : String) : Prop :=
  ∃ e ∈ storage, e.get? "label" = some (.string name) ∧
    (e.get? "slot" = some (.string s) ∨
      ∃ k, e.get? "slot" = some (.number k) ∧ s = String.ofList k.chars)

/-- The slots of the variable's entries. -/
def listedSlots (name : String) (storage : List Json) : List String :=
  (storage.filter fun e => (e.get? "label").bind Json.asString? == some name).filterMap entrySlot

theorem asString?_eq_some_iff {j : Json} : j.asString? = some s ↔ j = .string s := by
  cases j <;> simp [Json.asString?]

theorem entrySlot_eq_some_iff {e : Json} : entrySlot e = some s ↔
    e.get? "slot" = some (.string s) ∨
      ∃ k, e.get? "slot" = some (.number k) ∧ s = String.ofList k.chars := by
  unfold entrySlot
  split
  · next h => simp [h]
  · next h => simp [h, eq_comm]
  · next h h' =>
    simp only [reduceCtorEq, false_iff, not_or, not_exists, not_and]
    exact ⟨h s, fun k hk => absurd hk (h' k)⟩

theorem mem_listedSlots_iff : s ∈ listedSlots name storage ↔ IsListed name storage s := by
  simp only [listedSlots, IsListed, List.mem_filterMap, List.mem_filter, beq_iff_eq,
    Option.bind_eq_some_iff, asString?_eq_some_iff, exists_eq_right, entrySlot_eq_some_iff,
    and_assoc]

theorem ofLayout_eq (h : layout.get? "storage" = some (.array storage)) :
    ofLayout contract name layout = readOnly (fun s => (decimalToHex s).map some)
      (.noVariable name contract) (fun slot => .layoutSlot slot name contract)
      (.severalLayoutSlots name contract) (listedSlots name storage) := by
  have hstorage : (layout.get? "storage").bind Json.asArray? = some storage := by
    rw [h]
    rfl
  rw [ofLayout, hstorage, readOnly, listedSlots]
  dsimp only
  generalize SortedMap.distinct ((storage.filter _).filterMap entrySlot) = slots
  rcases slots with - | ⟨slot, - | ⟨other, slots⟩⟩
  · rfl
  · dsimp only
    cases decimalToHex slot <;> rfl
  · rfl

/-- Of numerals for one number that only one is listed, the layout reports the normal form. -/
theorem ofLayout_of_only (hstorage : layout.get? "storage" = some (.array storage))
    (hw : Spells 10 w.toList n) (h : ∀ s, IsListed name storage s ↔ s = w) :
    ofLayout contract name layout = .ok (some (Text.hexadecimal n)) := by
  simp only [← mem_listedSlots_iff] at h
  rw [ofLayout_eq hstorage]
  refine readOnly_of_forall_eq ((h w).2 rfl) (fun s hs => (h s).1 hs) ?_
  rw [decimalToHex_of_spells hw, Option.map_some]

end Layout

/-- Numerals have normal forms and nothing else has, these are compared as the numbers are, and a
slot that is listed in decimal is reported in the same form. -/
theorem normalize_identifies_numbers (v w : String) :
    ((normalize v).isSome ↔ (v.toList ≠ [] ∧ ∀ c ∈ v.toList, c.isDigit) ∨
      ∃ x ds, (x = 'x' ∨ x = 'X') ∧ v.toList = '0' :: x :: ds ∧ ds ≠ [] ∧
        ∀ c ∈ ds, c.isDigit ∨ ('a' ≤ c ∧ c ≤ 'f') ∨ 'A' ≤ c ∧ c ≤ 'F') ∧
    (∀ t, normalize v = some t → ∃ n, Denotes v n ∧ IsNormal t n) ∧
    ((normalize v).isSome → (normalize v = normalize w ↔ SameNumber v w)) ∧
    ∀ contract name layout storage, layout.get? "storage" = some (.array storage) →
      isDecimal w → (∀ s, IsListed name storage s ↔ s = w) →
        (ofLayout contract name layout = .ok (normalize v) ↔ SameNumber v w) := by
  have hsome : (normalize v).isSome ↔ ∃ n, Denotes v n := by
    simp only [Option.isSome_iff_exists, normalize_eq_some_iff]
    exact ⟨fun ⟨_, n, hn, _⟩ => ⟨n, hn⟩, fun ⟨n, hn⟩ => ⟨_, n, hn, rfl⟩⟩
  refine ⟨?_, ?_, ?_, ?_⟩
  · rw [hsome, ← exists_spells_ten_iff, ← exists_spells_sixteen_iff]
    constructor
    · rintro ⟨n, radix, hn⟩
      rcases hn.radix_eq with rfl | rfl
      · exact .inl ⟨n, hn⟩
      · exact .inr ⟨n, hn⟩
    · rintro (⟨n, hn⟩ | ⟨n, hn⟩)
      · exact ⟨n, 10, hn⟩
      · exact ⟨n, 16, hn⟩
  · intro t ht
    obtain ⟨n, hn, rfl⟩ := normalize_eq_some_iff.1 ht
    exact ⟨n, hn, isNormal_iff.2 rfl⟩
  · exact fun h => normalize_eq_iff (hsome.1 h)
  · intro contract name layout storage hstorage hw hlisted
    obtain ⟨n, hn⟩ := isDecimal_iff.1 hw
    have hnormal : normalize w = some (Text.hexadecimal n) := normalize_of_spells hn
    rw [ofLayout_of_only hstorage hn hlisted, Except.ok.injEq, ← hnormal,
      normalize_eq_iff ⟨n, 10, hn⟩, sameNumber_comm]

/-- The storage of a contract that lists its owner twice, in slot 255. -/
def ownedStorage : List Json :=
  [.object [("label", "owner"), ("slot", "255")], .object [("label", "token"), ("slot", "0")],
    .object [("label", "owner"), ("slot", .ofNat 255)]]

/-- A numeral in capitals with zeros in front. -/
theorem normalize_identifies_numbers_owner :
    normalize "0X00fF" = some "ff" ∧ SameNumber "0X00fF" "255" ∧
      ofLayout "Vault" "owner" (.object [("storage", .array ownedStorage)]) =
        .ok (normalize "0X00fF") := by
  obtain ⟨-, -, hcompared, hreported⟩ := normalize_identifies_numbers "0X00fF" "255"
  have hnormal : normalize "0X00fF" = some "ff" := by decide +kernel
  have hequal : normalize "0X00fF" = normalize "255" := by decide +kernel
  have hsame : SameNumber "0X00fF" "255" :=
    (hcompared (Option.isSome_of_eq_some hnormal)).1 hequal
  have hlisted : ∀ s, IsListed "owner" ownedStorage s ↔ s = "255" := by
    intro s
    have hslots : listedSlots "owner" ownedStorage = ["255", "255"] := by decide +kernel
    rw [← mem_listedSlots_iff, hslots]
    simp
  exact ⟨hnormal, hsame,
    (hreported "Vault" "owner" _ ownedStorage rfl (by decide +kernel) hlisted).2 hsame⟩

end ContractModel.Slot
