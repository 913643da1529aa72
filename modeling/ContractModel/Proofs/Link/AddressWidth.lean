import ContractModel.Proofs.Link.Addresses
import ContractModel.Proofs.Link.Substitution
import ContractModel.Proofs.Text.Numerals

/-! # The width of addresses

The addresses that a book chooses are written with forty digits, so that they fill the places of
libraries. An address that the user sets is taken over from any numeral: it is as wide exactly if
the number it denotes has at most 160 bits.
-/

namespace ContractModel

namespace Address

variable {n : Nat} {s : String}

/-- How the radix is marked in front of the digits. -/
inductive RadixMark : List Char → Nat → Prop
  | unmarked : RadixMark [] 10
  | hexadecimal {x : Char} (h : x = 'x' ∨ x = 'X') : RadixMark ['0', x] 16
  | octal {o : Char} (h : o = 'o' ∨ o = 'O') : RadixMark ['0', o] 8
  | binary {b : Char} (h : b = 'b' ∨ b = 'B') : RadixMark ['0', b] 2

/-- The digits denote the number, perhaps behind a plus sign. -/
def SignedDigits (radix : Nat) (cs : List Char) (n : Nat) : Prop :=
  ∃ ds, (cs = ds ∨ cs = '+' :: ds) ∧ ds ≠ [] ∧ Text.readDigits radix 0 ds = some n

/-- The text denotes the number; blanks around it and underscores do not count. -/
def Denotes (s : String) (n : Nat) : Prop :=
  ∃ mark radix cs, RadixMark mark radix ∧
    (Text.trim s).toList.filter (· ≠ '_') = mark ++ cs ∧ SignedDigits radix cs n

theorem readUnbounded_ofList {radix : Nat} {cs : List Char} (h : '_' ∉ cs) :
    Text.readUnbounded radix (String.ofList cs) = some n ↔ SignedDigits radix cs n := by
  rw [Text.readUnbounded_eq_some_iff (by rwa [String.toList_ofList]), String.toList_ofList]
  rfl

/-- A radix mark is not read as digits. -/
theorem not_signedDigits_of_mark {c : Char} {cs : List Char} (h : Text.digitValue 10 c = none) :
    ¬ SignedDigits 10 ('0' :: c :: cs) n := by
  rintro ⟨ds, rfl | hplus, -, hread⟩
  · have hc := Text.isSome_digitValue_of_mem hread (List.mem_cons_of_mem _ List.mem_cons_self)
    rw [h] at hc
    cases hc
  · cases hplus

/-- Reading accepts exactly the numerals. -/
theorem parse_eq_some_iff : parse s = some n ↔ Denotes s n := by
  have hs : '_' ∉ (Text.trim s).toList.filter (· ≠ '_') := by simp
  unfold parse Denotes
  generalize (Text.trim s).toList.filter (· ≠ '_') = cs at hs
  have htail {a b : Char} {ds : List Char} (h : cs = a :: b :: ds) : '_' ∉ ds := fun hmem =>
    hs (h ▸ List.mem_cons_of_mem _ (List.mem_cons_of_mem _ hmem))
  constructor
  · intro h
    split at h
    · exact ⟨_, _, _, .hexadecimal (.inl rfl), rfl, (readUnbounded_ofList (htail rfl)).1 h⟩
    · exact ⟨_, _, _, .hexadecimal (.inr rfl), rfl, (readUnbounded_ofList (htail rfl)).1 h⟩
    · exact ⟨_, _, _, .octal (.inl rfl), rfl, (readUnbounded_ofList (htail rfl)).1 h⟩
    · exact ⟨_, _, _, .octal (.inr rfl), rfl, (readUnbounded_ofList (htail rfl)).1 h⟩
    · exact ⟨_, _, _, .binary (.inl rfl), rfl, (readUnbounded_ofList (htail rfl)).1 h⟩
    · exact ⟨_, _, _, .binary (.inr rfl), rfl, (readUnbounded_ofList (htail rfl)).1 h⟩
    · exact ⟨_, _, _, .unmarked, rfl, (readUnbounded_ofList hs).1 h⟩
  · rintro ⟨mark, radix, ds, hmark, rfl, hread⟩
    cases hmark with
    | hexadecimal h => rcases h with rfl | rfl <;> exact (readUnbounded_ofList (htail rfl)).2 hread
    | octal h => rcases h with rfl | rfl <;> exact (readUnbounded_ofList (htail rfl)).2 hread
    | binary h => rcases h with rfl | rfl <;> exact (readUnbounded_ofList (htail rfl)).2 hread
    | unmarked =>
      rw [List.nil_append] at hs ⊢
      split
      iterate 6 exact absurd hread (not_signedDigits_of_mark rfl)
      exact (readUnbounded_ofList hs).2 hread

/-- Forty lowercase hexadecimal digits, the text of twenty bytes. -/
structure IsFull (s : String) : Prop where
  length : s.length = 40
  digits : ∀ c ∈ s.toList, c.isDigit ∨ 'a' ≤ c ∧ c ≤ 'f'

theorem digits_text (n : Nat) {c : Char} (h : c ∈ (text n).toList) :
    c.isDigit ∨ 'a' ≤ c ∧ c ≤ 'f' := by
  rw [text, Text.hexadecimalPadded, String.toList_ofList, Text.padded, List.mem_append] at h
  rcases h with h | h
  · rw [List.eq_of_mem_replicate h]
    exact .inl rfl
  · obtain ⟨d, hd, rfl⟩ := Text.exists_of_mem_digits (by decide) h
    exact Text.isLowercase_digitChar d hd

/-- The text of a number has forty digits exactly if the number has at most 160 bits. -/
theorem isFull_text_iff : IsFull (text n) ↔ n < Nat.pow 2 160 := by
  have hbits : Nat.pow 2 160 = Nat.pow 16 40 := by decide
  rw [hbits]
  constructor
  · intro h
    have hlength := h.length
    rw [text, Text.hexadecimalPadded, Text.padded, String.length_ofList, List.length_append,
      List.length_replicate] at hlength
    calc n < Nat.pow 16 (Text.digits 16 n).length :=
          Text.lt_pow_length_digits (by decide) (by decide)
      _ ≤ Nat.pow 16 40 := Nat.pow_le_pow_right (by decide) (by omega)
  · exact fun h => ⟨length_text h, fun c => digits_text n⟩

end Address

namespace Linking

variable {ε : Type} {resolve : String → String → Except ε String} {references : LinkReferences}
  {code out : List Char} {bytecode : String}

/-- What goes to a place is as wide as the place, in one-byte characters. -/
structure Replacement.Fits (r : Replacement) : Prop where
  length : r.address.length = 2 * r.length
  chars : ∀ c ∈ r.address.toList, c.utf8Size = 1

theorem fill_keeps_length {start : Nat} {r : Replacement} (hcode : ∀ c ∈ code, c.utf8Size = 1)
    (hr : r.Fits) (h : (fill code start r : Except (Fault ε) _) = .ok out) :
    out.length = code.length ∧ ∀ c ∈ out, c.utf8Size = 1 := by
  rw [fill_eq fun c hc => hcode c (List.mem_of_mem_take hc)] at h
  split at h
  · next hinside =>
    cases h
    have hsub : Substituted code (filled code start r) [(⟨start, r.length⟩, r.address)] :=
      @substituted_filled code ⟨start, r.length⟩ r.address hinside hr.length
    refine ⟨hsub.length, fun c hc => ?_⟩
    rcases List.mem_append.1 hc with hc | hc
    · rcases List.mem_append.1 hc with hc | hc
      · rcases mem_markPush hc with hc | hc
        · exact hcode c (List.mem_of_mem_take hc)
        · rcases hc with _ | ⟨_, _ | ⟨_, ⟨⟩⟩⟩ <;> rfl
      · exact hr.chars c hc
    · exact hcode c (List.mem_of_mem_drop hc)
  · cases h

/-- Also where places overlap, what fits in its place moves nothing behind it. -/
theorem fillAll_keeps_length {order : List (Nat × Replacement)}
    (hcode : ∀ c ∈ code, c.utf8Size = 1) (horder : ∀ e ∈ order, e.2.Fits)
    (h : (fillAll code order : Except (Fault ε) _) = .ok out) : out.length = code.length := by
  induction order generalizing code with
  | nil =>
    cases h
    rfl
  | cons e order ih =>
    obtain ⟨code', hcode', h⟩ := Run.except_bind_eq_ok_iff.1 h
    obtain ⟨hlength, hchars⟩ := fill_keeps_length hcode (horder e List.mem_cons_self) hcode'
    rw [ih hchars (fun e he => horder e (List.mem_cons_of_mem _ he)) h, hlength]

theorem mem_of_mem_ofList {es : List (Nat × Replacement)} {e : Nat × Replacement}
    (h : e ∈ (SortedMap.ofList es).entries) : e ∈ es := by
  have hget : (SortedMap.ofList es).get? e.1 = some e.2 := SortedMap.get?_eq_some_iff.2 h
  have hfrom := SortedMap.mem_of_look_foldl (fun m w k => SortedMap.get?_insert m w.1 k w.2) hget
  exact hfrom.resolve_right nofun

/-- Linking keeps the length if all addresses fit. -/
theorem link_keeps_length {linked : Linked} (hcode : ∀ c ∈ bytecode.toList, c.toNat < 128)
    (hfits : ∀ p ∈ places references, ∀ address, resolve p.1 p.2.1 = .ok address →
      Replacement.Fits ⟨p.2.2.length, address⟩)
    (h : link resolve bytecode references = .ok linked) :
    linked.bytecode.length = bytecode.length := by
  rcases replacements_eq resolve references with ⟨as, has, hok⟩ | ⟨-, -, e, -, herror⟩
  · rw [link_eq hok] at h
    obtain ⟨code, hfilled, h⟩ := Run.except_bind_eq_ok_iff.1 h
    cases h
    rw [String.length_ofList, ← String.length_toList]
    refine fillAll_keeps_length (fun c hc => ?_) (fun e he => ?_) hfilled
    · exact Char.utf8Size_eq_one_iff.2 (Nat.le_of_lt_succ (hcode c hc))
    · obtain ⟨a, ha, rfl⟩ := List.mem_map.1 (mem_of_mem_ofList (List.mem_reverse.1 he))
      have hmem : resolved a ∈ answers resolve references := has ▸ List.mem_map_of_mem ha
      obtain ⟨p, hp, heq⟩ := List.mem_map.1 hmem
      obtain ⟨hplace, haddress⟩ := Prod.mk.inj heq
      have hfit := hfits p hp a.2 haddress
      rwa [hplace] at hfit
  · rw [link, herror] at h
    cases h

end Linking

namespace AddressBook

variable {b : AddressBook} {overrides : SortedMap String String} {file contract value : String}

/-- An override counts for what it denotes. -/
theorem find_of_override (hentered : (b.lookup? file contract).isSome)
    (h : overrides.get? contract = some value) : b.find overrides file contract =
      match Address.parse value with
      | some n => .ok (Address.text n)
      | none => .error (.addressValue value contract) := by
  obtain ⟨address, hlookup⟩ := Option.isSome_iff_exists.1 hentered
  cases hparse : Address.parse value with
  | none => simp only [find, hlookup, h, hparse]
  | some n => simp only [find, hlookup, h, hparse]

theorem find_of_lookup?_eq_none (h : b.lookup? file contract = none) :
    b.find overrides file contract =
      .error (.noAddress contract file (b.entries.map Prod.snd)) := by
  simp only [find, h]

/-- The entries are 128-bit numbers. -/
def IsNarrow (b : AddressBook) : Prop := ∀ e ∈ b.entries, e.1 < Nat.pow 2 128

theorem IsNarrow.lt_of_lookup? {address : Nat} (hb : b.IsNarrow)
    (h : b.lookup? file contract = some address) : address < Nat.pow 2 128 := by
  obtain ⟨e, hfind, rfl⟩ := Option.map_eq_some_iff.1 h
  exact hb e (List.mem_of_find?_eq_some hfind)

/-- No contract of the book has an override of more than 160 bits. -/
def OverridesFit (b : AddressBook) (overrides : SortedMap String String) : Prop :=
  ∀ file contract value n, (b.lookup? file contract).isSome →
    overrides.get? contract = some value → Address.Denotes value n → n < Nat.pow 2 160

/-- Everything that is found is twenty bytes wide, what is no such address is refused, and linking
twenty bytes at a time moves nothing. -/
structure KeepsWidth (b : AddressBook) (overrides : SortedMap String String) : Prop where
  found : ∀ file contract text, b.find overrides file contract = .ok text → Address.IsFull text
  refused : ∀ file contract value, overrides.get? contract = some value →
    (¬ ∃ n < Nat.pow 2 160, Address.Denotes value n) →
      ∃ fault, b.find overrides file contract = .error fault ∧
        ((b.lookup? file contract).isSome → fault = .addressValue value contract)
  linked : ∀ bytecode references linked, (∀ c ∈ bytecode.toList, c.toNat < 128) →
    (∀ p ∈ Linking.places references, p.2.2.length = 20) →
    Linking.link (b.find overrides) bytecode references = .ok linked →
      linked.bytecode.length = bytecode.length ∧
      ((Linking.places references).Pairwise (fun p q => p.2.2.Apart q.2.2) →
        ∃ fills, Linking.answers (b.find overrides) references = fills.map Linking.resolved ∧
          Linking.Substituted bytecode.toList linked.bytecode.toList fills)

theorem OverridesFit.found (hb : b.IsNarrow) (h : b.OverridesFit overrides) {text : String}
    (hfind : b.find overrides file contract = .ok text) : Address.IsFull text := by
  cases hlookup : b.lookup? file contract with
  | none =>
    rw [find_of_lookup?_eq_none hlookup] at hfind
    cases hfind
  | some address =>
    have hentered : (b.lookup? file contract).isSome := Option.isSome_of_eq_some hlookup
    cases hoverride : overrides.get? contract with
    | none =>
      obtain ⟨address', hlookup', rfl⟩ := (find_eq_ok_iff hoverride).1 hfind
      exact Address.isFull_text_iff.2 (Nat.lt_trans (hb.lt_of_lookup? hlookup') (by decide))
    | some value =>
      rw [find_of_override hentered hoverride] at hfind
      split at hfind
      · next n hparse =>
        cases hfind
        exact Address.isFull_text_iff.2
          (h file contract value n hentered hoverride (Address.parse_eq_some_iff.1 hparse))
      · cases hfind

theorem OverridesFit.refused (h : b.OverridesFit overrides)
    (hoverride : overrides.get? contract = some value)
    (hno : ¬ ∃ n < Nat.pow 2 160, Address.Denotes value n) :
    ∃ fault, b.find overrides file contract = .error fault ∧
      ((b.lookup? file contract).isSome → fault = .addressValue value contract) := by
  cases hlookup : b.lookup? file contract with
  | none => exact ⟨_, find_of_lookup?_eq_none hlookup, nofun⟩
  | some address =>
    have hentered : (b.lookup? file contract).isSome := Option.isSome_of_eq_some hlookup
    refine ⟨_, ?_, fun _ => rfl⟩
    rw [find_of_override hentered hoverride]
    cases hparse : Address.parse value with
    | none => rfl
    | some n =>
      have hdenotes := Address.parse_eq_some_iff.1 hparse
      exact absurd ⟨n, h file contract value n hentered hoverride hdenotes, hdenotes⟩ hno

/-- An address that is found goes where twenty bytes are left for it. -/
theorem fits_of_isFull {place : ByteRange} {text : String} (h : Address.IsFull text)
    (hplace : place.length = 20) : Linking.Replacement.Fits ⟨place.length, text⟩ where
  length := by
    simp only [h.length, hplace]
  chars c hc := by
    refine Char.utf8Size_eq_one_iff.2 ?_
    rcases h.digits c hc with hdigit | ⟨-, hle⟩
    · simp only [Char.isDigit, Bool.and_eq_true, decide_eq_true_eq] at hdigit
      exact UInt32.le_trans hdigit.2 (by decide)
    · exact UInt32.le_trans hle (by decide)

theorem OverridesFit.keepsWidth (hb : b.IsNarrow) (h : b.OverridesFit overrides) :
    KeepsWidth b overrides where
  found _ _ _ := h.found hb
  refused _ _ _ := h.refused
  linked bytecode references linked hcode hplaces hlink := by
    have hfits : ∀ p ∈ Linking.places references, ∀ text,
        b.find overrides p.1 p.2.1 = .ok text → Linking.Replacement.Fits ⟨p.2.2.length, text⟩ :=
      fun p hp text htext => fits_of_isFull (h.found hb htext) (hplaces p hp)
    refine ⟨Linking.link_keeps_length hcode hfits hlink, fun hapart => ?_⟩
    have hplaced : Linking.WellPlaced (Linking.answers (b.find overrides) references) := by
      constructor
      · intro a ha
        obtain ⟨p, hp, rfl⟩ := List.mem_map.1 ha
        have := hplaces p hp
        dsimp only
        omega
      · exact List.pairwise_map.2 hapart
      · intro a ha text htext
        obtain ⟨p, hp, rfl⟩ := List.mem_map.1 ha
        exact (hfits p hp text htext).length
    obtain ⟨fills, hfills, hsub, -⟩ := Linking.substituted_of_link hcode hplaced hlink
    exact ⟨fills, hfills, hsub⟩

/-- Addresses keep their width exactly if no override has more than 160 bits: such an override is
accepted as any other number is. -/
theorem keepsWidth_iff_overridesFit (hb : b.IsNarrow) :
    KeepsWidth b overrides ↔ b.OverridesFit overrides := by
  refine ⟨fun h file contract value n hentered hoverride hdenotes => ?_, fun h => h.keepsWidth hb⟩
  refine Address.isFull_text_iff.1 (h.found file contract _ ?_)
  rw [find_of_override hentered hoverride, Address.parse_eq_some_iff.2 hdenotes]

/-- A book with one contract. -/
def oracleBook : AddressBook := empty.assign "/p/Oracle.sol" "Oracle"

def oracleOverride (value : String) : SortedMap String String :=
  (∅ : SortedMap _ _).insert "Oracle" value

theorem isNarrow_oracleBook : oracleBook.IsNarrow := by
  unfold IsNarrow
  decide +kernel

theorem overridesFit_oracle {n : Nat} (h : Address.parse value = some n) (hn : n < Nat.pow 2 160) :
    OverridesFit b (oracleOverride value) := by
  intro file contract value' n' _ hoverride hdenotes
  rw [oracleOverride, SortedMap.get?_insert] at hoverride
  split at hoverride
  · cases hoverride
    cases h.symm.trans (Address.parse_eq_some_iff.2 hdenotes)
    exact hn
  · cases hoverride

/-- The largest address, with the radix mark in capitals, an underscore and blanks. -/
theorem keepsWidth_largest : oracleBook.IsNarrow ∧
    KeepsWidth oracleBook (oracleOverride " 0Xffff_FFFFffffffffffffffffffffffffffffffff ") ∧
    oracleBook.find (oracleOverride " 0Xffff_FFFFffffffffffffffffffffffffffffffff ")
      "/p/Oracle.sol" "Oracle" = .ok "ffffffffffffffffffffffffffffffffffffffff" := by
  have hparse : Address.parse " 0Xffff_FFFFffffffffffffffffffffffffffffffff " =
      some (Nat.pow 2 160 - 1) := by decide +kernel
  refine ⟨isNarrow_oracleBook, ?_, Run.toOption_eq_some_iff.1 (by decide +kernel)⟩
  exact (keepsWidth_iff_overridesFit isNarrow_oracleBook).2
    (overridesFit_oracle hparse (by decide))

/-- An override of 161 bits is found, with forty-one digits. -/
theorem not_keepsWidth_wide :
    oracleBook.find (oracleOverride "0x10000000000000000000000000000000000000000")
        "/p/Oracle.sol" "Oracle" = .ok "10000000000000000000000000000000000000000" ∧
      ¬ KeepsWidth oracleBook (oracleOverride "0x10000000000000000000000000000000000000000") := by
  have hfind : oracleBook.find (oracleOverride "0x10000000000000000000000000000000000000000")
      "/p/Oracle.sol" "Oracle" = .ok "10000000000000000000000000000000000000000" :=
    Run.toOption_eq_some_iff.1 (by decide +kernel)
  refine ⟨hfind, fun h => ?_⟩
  have hlength := (h.found _ _ _ hfind).length
  revert hlength
  decide

end AddressBook

end ContractModel
