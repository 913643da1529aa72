import ContractModel.Proofs.Build.Representatives
import ContractModel.Types.Resolution
import Mathlib.Data.List.Pairwise

/-! # Duplicates among methods

Agreement of types, and with it being the same internally, is an equivalence but for types that are
confused. Methods without such types have as many representatives in one order as in another, and
these correspond to each other.
-/

namespace ContractModel

namespace BuildUnit

open ContractFunction

section Counting

variable {α : Type} {r : α → α → Prop} {as bs : List α}

/-- Elements that are apart need as many others to be related to. -/
theorem length_le_of_apart (hapart : as.Pairwise fun a a' => ¬ r a a')
    (hrelated : ∀ a ∈ as, ∃ b ∈ bs, r a b)
    (hjoin : ∀ a ∈ as, ∀ a' ∈ as, ∀ b ∈ bs, r a b → r a' b → r a a') :
    as.length ≤ bs.length := by
  induction as generalizing bs with
  | nil => exact Nat.zero_le _
  | cons a as ih =>
    obtain ⟨ha, has⟩ := List.pairwise_cons.1 hapart
    obtain ⟨b, hb, hab⟩ := hrelated a List.mem_cons_self
    obtain ⟨pre, post, rfl⟩ := List.append_of_mem hb
    have hrest : as.length ≤ (pre ++ post).length := by
      apply ih has
      · intro a' ha'
        obtain ⟨b', hb', hab'⟩ := hrelated a' (List.mem_cons_of_mem a ha')
        have hne : b' ≠ b := by
          rintro rfl
          have hjoined := hjoin a List.mem_cons_self a' (List.mem_cons_of_mem a ha') b' hb hab hab'
          exact ha a' ha' hjoined
        exact ⟨b', by simpa [hne] using hb', hab'⟩
      · intro a₁ h₁ a₂ h₂ b' hb'
        have hb' : b' ∈ pre ++ b :: post := by
          simp only [List.mem_append, List.mem_cons] at hb' ⊢
          tauto
        exact hjoin a₁ (List.mem_cons_of_mem a h₁) a₂ (List.mem_cons_of_mem a h₂) b' hb'
    simp only [List.length_append, List.length_cons] at hrest ⊢
    omega

end Counting

/-- No three functions have types that are confused. -/
def Unconfused (fs : List ContractFunction) : Prop :=
  ∀ f ∈ fs, ∀ g ∈ fs, ∀ k ∈ fs, ¬ Confused f g k

variable {f g k : ContractFunction} {fs gs : List ContractFunction}

theorem Unconfused.trans (h : Unconfused fs) (hf : f ∈ fs) (hg : g ∈ fs) (hk : k ∈ fs)
    (hfg : f.sameInternally g) (hgk : g.sameInternally k) : f.sameInternally k :=
  (sameInternally_trans_iff hfg hgk).2 (h f hf g hg k hk)

theorem exists_mem_uniqueMethods_same (hf : f ∈ fs) :
    ∃ g ∈ uniqueMethods fs, f.sameInternally g := by
  obtain ⟨pre, post, rfl⟩ := List.append_of_mem hf
  by_cases hsame : ∃ g ∈ uniqueMethods pre, g.sameInternally f
  · obtain ⟨g, hg, hgf⟩ := hsame
    exact ⟨g, mem_uniqueMethods_append hg, sameInternally_symm hgf⟩
  · refine ⟨f, mem_uniqueMethods_iff.2 ⟨pre, post, rfl, ?_⟩, sameInternally_refl f⟩
    intro g hg hgf
    exact hsame ⟨g, hg, hgf⟩

theorem mem_of_mem_uniqueMethods_of_perm (hperm : fs.Perm gs) (hg : g ∈ uniqueMethods gs) :
    g ∈ fs := hperm.mem_iff.2 (mem_of_mem_uniqueMethods hg)

theorem length_uniqueMethods_le (hperm : fs.Perm gs) (h : Unconfused fs) :
    (uniqueMethods fs).length ≤ (uniqueMethods gs).length := by
  apply length_le_of_apart (pairwise_uniqueMethods fs)
  · intro f hf
    exact exists_mem_uniqueMethods_same (hperm.mem_iff.1 (mem_of_mem_uniqueMethods hf))
  · intro f hf f' hf' g hg hfg hf'g
    exact h.trans (mem_of_mem_uniqueMethods hf) (mem_of_mem_uniqueMethods_of_perm hperm hg)
      (mem_of_mem_uniqueMethods hf') hfg (sameInternally_symm hf'g)

instance : Std.Symm fun f g : ContractFunction => ¬ f.sameInternally g :=
  ⟨fun _ _ => not_sameInternally_symm⟩

theorem existsUnique_uniqueMethods (hperm : fs.Perm gs) (h : Unconfused fs)
    (hf : f ∈ uniqueMethods fs) : ∃! g, g ∈ uniqueMethods gs ∧ f.sameInternally g := by
  have hf := mem_of_mem_uniqueMethods hf
  obtain ⟨g, hg, hfg⟩ := exists_mem_uniqueMethods_same (hperm.mem_iff.1 hf)
  refine ⟨g, ⟨hg, hfg⟩, ?_⟩
  rintro g' ⟨hg', hfg'⟩
  have hsame : g'.sameInternally g :=
    h.trans (mem_of_mem_uniqueMethods_of_perm hperm hg') hf
      (mem_of_mem_uniqueMethods_of_perm hperm hg) (sameInternally_symm hfg') hfg
  by_contra hne
  exact (pairwise_uniqueMethods gs).forall hg' hg hne hsame

/-- Agreement of types and being the same internally are equivalences but for types that are
confused. Without those, the order of functions does not matter to their representatives. -/
theorem agreement_equivalenceBut :
    EquivalenceBut (fun s t : SourceType => s.agrees t) SourceType.Confused ∧
    EquivalenceBut (fun f g : ContractFunction => f.sameInternally g) Confused ∧
    ∀ fs gs : List ContractFunction, fs.Perm gs → Unconfused fs →
      (uniqueMethods fs).length = (uniqueMethods gs).length ∧
      ∀ f ∈ uniqueMethods fs, ∃! g, g ∈ uniqueMethods gs ∧ f.sameInternally g := by
  refine ⟨⟨SourceType.agrees_refl, SourceType.agrees_symm, SourceType.agrees_trans_iff⟩,
    ⟨sameInternally_refl, sameInternally_symm, sameInternally_trans_iff⟩, ?_⟩
  intro fs gs hperm h
  have h' : Unconfused gs := by
    intro f hf g hg k hk
    exact h f (hperm.mem_iff.2 hf) g (hperm.mem_iff.2 hg) k (hperm.mem_iff.2 hk)
  refine ⟨?_, fun f => existsUnique_uniqueMethods hperm h⟩
  have hle := length_uniqueMethods_le hperm h
  have hge := length_uniqueMethods_le hperm.symm h'
  omega

section Orders

/-! Two contracts `Book` in two files, one with `struct Order`, the other with `enum Order`; and a
parameter of the first type where it is not in scope. -/

def orderStruct : Node where
  id := 2
  kind := "StructDefinition"
  contract := some "Book"
  lang := .solidity
  fields := [("id", .ofNat 2), ("name", "Order"), ("canonicalName", "Book.Order"),
    ("members", .array [.object [("id", .ofNat 3), ("nodeType", "VariableDeclaration"),
      ("name", "amount"), ("typeName", .object [("id", .ofNat 4),
        ("nodeType", "ElementaryTypeName"), ("name", "uint256"),
        ("typeDescriptions", .object [("typeString", "uint256")])])]])]

def orderEnum : Node where
  id := 12
  kind := "EnumDefinition"
  contract := some "Book"
  lang := .solidity
  fields := [("id", .ofNat 12), ("name", "Order"), ("canonicalName", "Book.Order"),
    ("members", .array [.object [("id", .ofNat 13), ("nodeType", "EnumValue"), ("name", "Bid")]])]

def orderParameter : InterfaceParameter :=
  ⟨"order", "tuple", some "struct Book.Order", some [⟨"amount", "uint256", none, none⟩]⟩

/-- A function `place` with one argument. -/
def place (t : SourceType) : ContractFunction :=
  { (default : ContractFunction) with
    name := "place"
    arguments := [{ ParameterType.elementary "order" with sourceType := t }] }

variable {s t u : SourceType} {ts : List SourceType}

theorem sameInternally_place_iff : (place s).sameInternally (place t) ↔ s.agrees t := by
  have hresults := typesAgree_refl (default : ContractFunction).results
  simp [sameInternally_iff, place, typesAgree, hresults]

theorem confused_place_iff :
    Confused (place s) (place t) (place u) ↔ SourceType.Confused s t u := by
  have hnone : ¬ ConfusedAt [] [] [] := by simp [ConfusedAt]
  simp only [Confused, place, confusedAt_cons_iff]
  exact (or_iff_left hnone).trans (or_iff_left hnone)

theorem unconfused_place (h : ∀ s ∈ ts, ∀ t ∈ ts, ∀ u ∈ ts, ¬ SourceType.Confused s t u) :
    Unconfused (ts.map place) := by
  simpa only [Unconfused, List.forall_mem_map, confused_place_iff] using h

/-- The struct, resolved. -/
def orderType : SourceType :=
  .record ⟨"Order", "struct Book.Order", "Book.Order", some "Book", 2⟩
    [("amount", .ofName "uint256")]

end Orders

theorem agreement_equivalenceBut_place :
    orderType.agrees (.ofName "struct Book.Order") ∧
    ¬ (place orderType).Confused (place (.ofName "struct Book.Order"))
      (place (.ofName "struct Book.Order")) ∧
    (uniqueMethods ([orderType, .ofName "struct Book.Order", .ofName "uint256"].map place)).length =
    (uniqueMethods
      ([.ofName "struct Book.Order", .ofName "uint256", orderType].map place)).length := by
  obtain ⟨-, hfunctions, horder⟩ := agreement_equivalenceBut
  have hagrees : orderType.agrees (.ofName "struct Book.Order") := by decide +kernel
  have hsame := sameInternally_place_iff.2 hagrees
  have hunconfused : Unconfused
      ([orderType, .ofName "struct Book.Order", .ofName "uint256"].map place) :=
    unconfused_place (by decide +kernel)
  refine ⟨hagrees, (hfunctions.trans_iff hsame (hfunctions.refl _)).1 hsame, ?_⟩
  apply (horder _ _ _ hunconfused).1
  exact List.Perm.map place (@List.perm_append_comm _ [orderType] _)

theorem length_uniqueMethods (fs : List ContractFunction) :
    (uniqueMethods fs).length = (fs.foldl addMethod []).length := (sort_perm _).length_eq

/-- The parameter agrees with the struct and the struct with the enumeration, but not the parameter
with the enumeration; how many functions represent the three depends on which one comes first. -/
theorem agreement_not_transitive : ∃ p s e : SourceType,
    (ParameterType.ofInterface [] orderParameter).toOption.map ParameterType.sourceType = some p ∧
    SourceType.ofDefinition ∅ "/Book.sol" orderStruct = .ok s ∧
    SourceType.ofDefinition ∅ "/Other.sol" orderEnum = .ok e ∧
    p.agrees s ∧ s.agrees e ∧ ¬ p.agrees e ∧
    (place p).sameInternally (place s) ∧ (place s).sameInternally (place e) ∧
    ¬ (place p).sameInternally (place e) ∧
    (uniqueMethods [place p, place s, place e]).length = 2 ∧
    (uniqueMethods [place s, place p, place e]).length = 1 := by
  have hp : ((ParameterType.ofInterface [] orderParameter).toOption.map
      ParameterType.sourceType).map (fun t => (t.identity?, t.typeString)) =
        some (none, "struct Book.Order") := by decide +kernel
  have hs : (SourceType.ofDefinition ∅ "/Book.sol" orderStruct).toOption.map
      (fun t => (t.identity?.map TypeIdentity.canonicalName, t.typeString)) =
        some (some "Book.Order", "struct Book.Order") := by decide +kernel
  have he : (SourceType.ofDefinition ∅ "/Other.sol" orderEnum).toOption.map
      (fun t => (t.identity?.map TypeIdentity.canonicalName, t.typeString)) =
        some (some "Book.Order", "enum Book.Order") := by decide +kernel
  obtain ⟨p, hp, hpkeys⟩ := Option.map_eq_some_iff.1 hp
  obtain ⟨s, hs, hskeys⟩ := Option.map_eq_some_iff.1 hs
  obtain ⟨e, he, hekeys⟩ := Option.map_eq_some_iff.1 he
  simp only [Prod.mk.injEq, Option.map_eq_some_iff] at hpkeys hskeys hekeys
  obtain ⟨hpnone, hptext⟩ := hpkeys
  obtain ⟨⟨i, hi, hiname⟩, hstext⟩ := hskeys
  obtain ⟨⟨j, hj, hjname⟩, hetext⟩ := hekeys
  have hps : p.agrees s := by simp [SourceType.agrees, hpnone, hptext, hstext]
  have hse : s.agrees e := by simp [SourceType.agrees, hi, hj, hiname, hjname]
  have hpe : ¬ p.agrees e := by simp [SourceType.agrees, hpnone, hptext, hetext]
  have hfg := sameInternally_place_iff.2 hps
  have hgk := sameInternally_place_iff.2 hse
  have hfk := mt sameInternally_place_iff.1 hpe
  refine ⟨p, s, e, hp, Run.toOption_eq_some_iff.1 hs, Run.toOption_eq_some_iff.1 he, hps, hse, hpe,
    hfg, hgk, hfk, ?_, ?_⟩
  · simp [length_uniqueMethods, addMethod, hfg, hfk]
  · simp [length_uniqueMethods, addMethod, sameInternally_symm hfg, hgk]

end BuildUnit

end ContractModel
