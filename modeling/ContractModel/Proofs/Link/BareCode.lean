import ContractModel.Language
import ContractModel.Proofs.Link.Addresses
import ContractModel.Proofs.Link.Substitution

/-! # Bytecode without code

Linking puts at least one address into a bytecode that refers to libraries. So the recorded
bytecode of a contract is empty exactly if the compiler gave neither code nor references, where the
prefix of Vyper bytecode is no code.
-/

namespace ContractModel

theorem Address.le_length_text (address : Nat) : 40 ≤ (text address).length := by
  rw [text, Text.hexadecimalPadded, Text.padded, String.length_ofList, List.length_append,
    List.length_replicate]
  omega

theorem SortedMap.entries_ofList_ne_nil {κ α : Type} [LT κ] [DecidableLT κ] [DecidableEq κ] [Key κ]
    {es : List (κ × α)} (h : es ≠ []) : (ofList es).entries ≠ [] := by
  obtain ⟨front, e, rfl⟩ := es.eq_nil_or_concat.resolve_left h
  have hlast : (ofList (front.concat e)).get? e.1 = some e.2 := by
    rw [ofList, List.concat_eq_append, List.foldl_append, List.foldl_cons, List.foldl_nil,
      get?_insert, if_pos rfl]
  exact List.ne_nil_of_mem (get?_eq_some_iff.1 hlast)

namespace Linking

variable {ε : Type} {resolve : String → String → Except ε String} {references : LinkReferences}
  {code out : List Char} {bytecode short : String} {linked : Linked}

theorem le_length_of_fill {start : Nat} {r : Replacement}
    (h : (fill code start r : Except (Fault ε) _) = .ok out) : r.address.length ≤ out.length := by
  unfold fill at h
  split at h
  · cases h
  · split at h
    · cases h
    · cases h
      simp only [List.length_append, String.length_toList]
      omega

/-- The address that was put in last is all there. -/
theorem exists_le_length_of_fillAll {order : List (Nat × Replacement)} (hne : order ≠ [])
    (h : (fillAll code order : Except (Fault ε) _) = .ok out) :
    ∃ p ∈ order, p.2.address.length ≤ out.length := by
  induction order generalizing code with
  | nil => exact absurd rfl hne
  | cons p order ih =>
    obtain ⟨filled, hfill, h⟩ := Run.except_bind_eq_ok_iff.1 h
    cases order with
    | nil =>
      cases h
      exact ⟨p, List.mem_cons_self, le_length_of_fill hfill⟩
    | cons q order =>
      obtain ⟨p', hp', hle⟩ := ih (List.cons_ne_nil q order) h
      exact ⟨p', List.mem_cons_of_mem _ hp', hle⟩

/-- Linking leads to a text that is shorter than any address only if there is nothing to link. -/
theorem bytecode_eq_short_iff
    (hresolve : ∀ file library text, resolve file library = .ok text → short.length < text.length)
    (h : link resolve bytecode references = .ok linked) :
    linked.bytecode = short ↔ places references = [] ∧ bytecode = short := by
  rcases replacements_eq resolve references with ⟨as, has, hmap⟩ | ⟨p, -, e, -, hmap⟩
  · rw [link_eq hmap] at h
    obtain ⟨out, hfill, h⟩ := Run.except_bind_eq_ok_iff.1 h
    cases h
    by_cases hempty : as = []
    · subst hempty
      obtain rfl : bytecode.toList = out := Except.ok.inj hfill
      have hplaces : places references = [] := List.map_eq_nil_iff.1 has
      rw [String.ofList_toList, and_iff_right hplaces]
    · have hmore : as.map replacement ≠ [] := by rwa [Ne, List.map_eq_nil_iff]
      have horder := SortedMap.entries_ofList_ne_nil hmore
      obtain ⟨p, hp, hle⟩ :=
        exists_le_length_of_fillAll (by rwa [Ne, List.reverse_eq_nil_iff]) hfill
      have hget := SortedMap.get?_eq_some_iff.2 (List.mem_reverse.1 hp)
      have hp : p ∈ as.map replacement :=
        (SortedMap.mem_of_look_foldl (fun m w k => SortedMap.get?_insert m w.1 k w.2) hget).resolve_right
          nofun
      obtain ⟨a, ha, rfl⟩ := List.mem_map.1 hp
      obtain ⟨q, hq, hanswer⟩ : ∃ q ∈ places references, resolve q.1 q.2.1 = .ok a.2 := by
        obtain ⟨q, hq, heq⟩ := List.mem_map.1 (has ▸ List.mem_map_of_mem ha)
        exact ⟨q, hq, congrArg Prod.snd heq⟩
      have hlong := hresolve _ _ _ hanswer
      constructor
      · rintro rfl
        rw [String.length_ofList] at hlong
        exact absurd (Nat.lt_of_le_of_lt hle hlong) (Nat.lt_irrefl _)
      · rintro ⟨hplaces, -⟩
        rw [hplaces] at hq
        cases hq
  · rw [link, hmap] at h
    cases h

end Linking

theorem Text.afterPrefix?_eq_some_iff {start s rest : String} :
    afterPrefix? start s = some rest ↔ s = start ++ rest := by
  constructor
  · intro h
    obtain ⟨cs, hcs, rfl⟩ := Option.map_eq_some_iff.1 h
    rw [← String.toList_inj, String.toList_append, String.toList_ofList]
    exact (List.isPrefixOf?_eq_some_iff_append_eq.1 hcs).symm
  · rintro rfl
    exact afterPrefix?_append start rest

theorem Language.normalizeBytecode_eq_empty_iff {lang : Language} {bytecode : String} :
    lang.normalizeBytecode bytecode = "" ↔ bytecode = "" ∨ lang = .vyper ∧ bytecode = "0x" := by
  cases lang with
  | solidity => simp [normalizeBytecode]
  | vyper =>
    rw [normalizeBytecode]
    cases hrest : Text.afterPrefix? "0x" bytecode with
    | none =>
      have hne : bytecode ≠ "0x" := by
        rintro rfl
        exact nomatch hrest
      simp [hne]
    | some rest =>
      obtain rfl := Text.afterPrefix?_eq_some_iff.1 hrest
      simp

/-- There is neither code in the bytecode nor a reference. -/
def Bytecode.IsBare (lang : Language) (code : Bytecode) : Prop :=
  Linking.places (code.linkReferences.getD ∅) = [] ∧
    (code.object = "" ∨ lang = .vyper ∧ code.object = "0x")

namespace Linking

variable {book : AddressBook} {overrides : SortedMap String String} {code : Bytecode}
  {linked : Linked} {lang : Language} {short : String}

theorem bytecode_eq_iff_of_find (hshort : short.length < 40)
    (h : link (book.find overrides) code.object (code.linkReferences.getD ∅) = .ok linked) :
    linked.bytecode = short ↔
      places (code.linkReferences.getD ∅) = [] ∧ code.object = short := by
  refine bytecode_eq_short_iff (fun file library text hfind => ?_) h
  obtain ⟨address, rfl⟩ := AddressBook.exists_text_of_find hfind
  exact Nat.lt_of_lt_of_le hshort (Address.le_length_text address)

/-- What is recorded of a linked bytecode is empty exactly if the compiler gave none. -/
theorem normalizeBytecode_eq_empty_iff_isBare
    (h : link (book.find overrides) code.object (code.linkReferences.getD ∅) = .ok linked) :
    lang.normalizeBytecode linked.bytecode = "" ↔ code.IsBare lang := by
  rw [Language.normalizeBytecode_eq_empty_iff, bytecode_eq_iff_of_find (by decide) h,
    bytecode_eq_iff_of_find (by decide) h, Bytecode.IsBare]
  tauto

/-- A bare bytecode that is not empty after linking is the prefix of Vyper bytecode. -/
theorem eq_prefix_of_isBare
    (h : link (book.find overrides) code.object (code.linkReferences.getD ∅) = .ok linked)
    (hne : linked.bytecode ≠ "") (hbare : code.IsBare lang) : lang = .vyper ∧ code.object = "0x" := by
  obtain ⟨hplaces, hempty | hprefix⟩ := hbare
  · exact absurd ((bytecode_eq_iff_of_find (by decide) h).2 ⟨hplaces, hempty⟩) hne
  · exact hprefix

end Linking

end ContractModel
