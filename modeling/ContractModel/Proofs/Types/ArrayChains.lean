import ContractModel.Proofs.Types.Dimensions
import ContractModel.Proofs.Types.Parameter

/-! # Arrays in the tree and in type strings

An array type is a chain of nodes from the outermost level, and its text has a group for each level
from the innermost. Both are read as the same dimensions exactly if each length is written as
digits: the tree does not evaluate other expressions.
-/

namespace ContractModel.Dimensions

open ParameterType

/-- The length of an array, and how the source writes it. -/
inductive Length where
  | dynamic
  | literal (value : Nat)
  | expression (value : Nat)

namespace Length

/-- The length that the compiler works with. -/
def actual : Length → Int
  | dynamic => -1
  | literal value => value
  | expression value => value

/-- The length that the tree shows. -/
def shown : Length → Int
  | dynamic => -1
  | literal value => if value ≤ Text.maxInt then value else -1
  | expression _ => -1

/-- The group in brackets that stands for the length in a type string. -/
def group : Length → String
  | dynamic => "[]"
  | literal value => "[" ++ Text.decimal value ++ "]"
  | expression value => "[" ++ Text.decimal value ++ "]"

/-- The length is not left to an expression, and is a 64-bit integer. -/
def IsPlain : Length → Prop
  | dynamic => True
  | literal value => value ≤ Text.maxInt
  | expression _ => False

instance : DecidablePred IsPlain
  | dynamic => inferInstanceAs (Decidable True)
  | literal value => inferInstanceAs (Decidable (value ≤ Text.maxInt))
  | expression _ => inferInstanceAs (Decidable False)

/-- The node of an array type has the length. -/
def IsOf (n : Node) : Length → Prop
  | dynamic => n.get? "length" = none
  | literal value => ∃ length, n.get? "length" = some length ∧
      length.get? "value" = some (.string (Text.decimal value))
  | expression _ => ∃ length, n.get? "length" = some length ∧ length.get? "value" = none

variable {l : Length} {n : Node}

theorem neg_one_le_actual (l : Length) : -1 ≤ l.actual := by
  cases l <;> simp only [actual] <;> omega

theorem neg_one_le_shown (l : Length) : -1 ≤ l.shown := by
  cases l with
  | literal value =>
    unfold shown
    split <;> omega
  | _ => exact Int.le_refl (-1)

theorem dimensionText_actual (l : Length) : dimensionText l.actual = l.group := by
  have hnat (value : Nat) : dimensionText value = "[" ++ Text.decimal value ++ "]" :=
    if_neg (by omega)
  cases l with
  | dynamic => rfl
  | literal value => exact hnat value
  | expression value => exact hnat value

theorem shown_eq_actual_iff : l.shown = l.actual ↔ l.IsPlain := by
  cases l with
  | dynamic => simp [shown, actual, IsPlain]
  | literal value =>
    unfold shown actual IsPlain
    split <;> simp_all
  | expression value =>
    simp only [shown, actual, IsPlain, iff_false]
    omega

theorem IsPlain.actual_le (h : l.IsPlain) : l.actual ≤ Text.maxInt := by
  cases l with
  | dynamic => decide
  | literal value => exact Int.ofNat_le.2 h
  | expression value => cases h

theorem IsOf.nodeLength_eq (h : l.IsOf n) : nodeLength n = l.shown := by
  unfold nodeLength
  cases l with
  | dynamic =>
    rw [h]
    rfl
  | literal value =>
    obtain ⟨length, hlength, hvalue⟩ := h
    rw [hlength, Option.bind_eq_bind, Option.bind_some, hvalue, Option.bind_some, Json.asId?,
      Text.readInt_decimal]
    dsimp only [shown]
    split <;> rfl
  | expression value =>
    obtain ⟨length, hlength, hvalue⟩ := h
    rw [hlength, Option.bind_eq_bind, Option.bind_some, hvalue]
    rfl

end Length

/-- The levels of an array type from the outermost, with their lengths, down to the base. -/
inductive ArrayChain : Node → List Length → Node → Prop
  | base {n : Node} (hkind : ¬ n.is "ArrayTypeName") : ArrayChain n [] n
  | level {n element base : Node} {l : Length} {ls : List Length} (hkind : n.is "ArrayTypeName")
      (hlength : l.IsOf n) (hchild : n.child? "baseType" = some element)
      (hrest : ArrayChain element ls base) : ArrayChain n (l :: ls) base

/-- The groups behind the base in a type string. -/
def groups : List Length → String
  | [] => ""
  | l :: ls => groups ls ++ l.group

variable {n base : Node} {ls : List Length} {s : String}

theorem lengths_actual (ls : List Length) : Lengths (ls.map Length.actual) :=
  List.forall_mem_map.2 fun l _ => l.neg_one_le_actual

theorem lengths_shown (ls : List Length) : Lengths (ls.map Length.shown) :=
  List.forall_mem_map.2 fun l _ => l.neg_one_le_shown

theorem groups_eq (ls : List Length) : groups ls = dimensionsText (ls.map Length.actual) := by
  induction ls with
  | nil => rfl
  | cons l ls ih => rw [groups, ih, List.map_cons, dimensionsText_cons, l.dimensionText_actual]

theorem map_shown_eq_iff :
    ls.map Length.shown = ls.map Length.actual ↔ ∀ l ∈ ls, l.IsPlain := by
  simp only [List.map_inj_left, Length.shown_eq_actual_iff]

theorem ArrayChain.ofNode_eq (h : ArrayChain n ls base) :
    ofNode n = .ok (ls.map Length.shown, base) := by
  induction h with
  | base hkind =>
    rw [ofNode, if_neg hkind]
    rfl
  | level hkind hlength hchild _ ih =>
    rw [ofNode, if_pos hkind]
    split
    · next hnone => cases hnone.symm.trans hchild
    · next hsome =>
      obtain rfl := Option.some.inj (hsome.symm.trans hchild)
      rw [ih, hlength.nodeLength_eq]
      rfl

theorem ofTypeString_groups_iff (hs : EndsInBase s) {r : List Int × String} :
    ofTypeString (s ++ groups ls) = .ok r ↔
      (∀ l ∈ ls, l.actual ≤ Text.maxInt) ∧ r = (ls.map Length.actual, s) := by
  rw [groups_eq, ofTypeString_append_iff (lengths_actual ls) hs, List.forall_mem_map]

/-- A parameter that is not in storage is shown with the type string of an array exactly if the
tree shows all lengths. -/
theorem ArrayChain.sourceSignature_eq_iff {ts : Trees} {root : String} {inLibrary : Bool}
    {parameter : Node} {t : ParameterType} (h : ArrayChain n ls base)
    (hs : base.typeString? = some s) (hname : parameter.child? "typeName" = some n)
    (hstorage : inStorage parameter = false)
    (ht : ofParameter ts root inLibrary parameter = .ok t) :
    t.sourceSignature = s ++ groups ls ↔ ∀ l ∈ ls, l.IsPlain := by
  obtain ⟨n', base', hname', hnode, -, hisStorage, hs'⟩ := ofParameter_eq_ok ht
  obtain rfl : n = n' := Option.some.inj (hname.symm.trans hname')
  obtain ⟨hdimensions, rfl⟩ := Prod.mk.inj (Except.ok.inj (h.ofNode_eq.symm.trans hnode))
  obtain rfl : s = t.base := Option.some.inj (hs.symm.trans hs')
  rw [sourceSignature, ending, hisStorage, hstorage, ← hdimensions, groups_eq, ← map_shown_eq_iff]
  constructor
  · intro htext
    refine dimensionsText_injective (lengths_shown ls) (lengths_actual ls) ?_
    simpa using htext
  · intro hlengths
    rw [hlengths]
    simp

/-- For every array type, the tree and the type string are read as the same dimensions, and a
parameter is shown with its type string, exactly if no length is an expression and all are 64-bit
integers. -/
theorem ArrayChain.paths_agree_iff (h : ArrayChain n ls base) (hs : base.typeString? = some s)
    (hend : EndsInBase s) :
    ofNode n = .ok (ls.map Length.shown, base) ∧
    ((∀ l ∈ ls, l.actual ≤ Text.maxInt) →
      ofTypeString (s ++ groups ls) = .ok (ls.map Length.actual, s)) ∧
    ((∃ ds, ofNode n = .ok (ds, base) ∧ ofTypeString (s ++ groups ls) = .ok (ds, s)) ↔
      ∀ l ∈ ls, l.IsPlain) ∧
    ∀ ts root inLibrary parameter t, parameter.child? "typeName" = some n →
      inStorage parameter = false → ofParameter ts root inLibrary parameter = .ok t →
      (t.sourceSignature = s ++ groups ls ↔ ∀ l ∈ ls, l.IsPlain) := by
  refine ⟨h.ofNode_eq, fun hle => (ofTypeString_groups_iff hend).2 ⟨hle, rfl⟩, ?_,
    fun ts root inLibrary parameter t hname hstorage ht =>
      h.sourceSignature_eq_iff hs hname hstorage ht⟩
  constructor
  · rintro ⟨ds, hnode, htext⟩
    obtain ⟨rfl, -⟩ := Prod.mk.inj (Except.ok.inj (h.ofNode_eq.symm.trans hnode))
    obtain ⟨-, heq⟩ := (ofTypeString_groups_iff hend).1 htext
    exact map_shown_eq_iff.1 (Prod.mk.inj heq).1
  · intro hplain
    refine ⟨_, h.ofNode_eq, (ofTypeString_groups_iff hend).2 ⟨?_, ?_⟩⟩
    · exact fun l hl => (hplain l hl).actual_le
    · rw [map_shown_eq_iff.2 hplain]

section Prices

/-! A parameter `prices` of type `uint256[][4]`, where the source writes the length as `4` or as
the name of a constant. -/

def priceNode : Node where
  id := 14
  kind := "ElementaryTypeName"
  contract := none
  lang := .solidity
  fields := [("id", .ofNat 14), ("nodeType", "ElementaryTypeName"),
    ("typeDescriptions", .object [("typeString", "uint256")])]

def pricesNode (length : Json.Members) : Node where
  id := 12
  kind := "ArrayTypeName"
  contract := none
  lang := .solidity
  fields := [("id", .ofNat 12), ("nodeType", "ArrayTypeName"), ("length", .object length),
    ("baseType", .object [("id", .ofNat 13), ("nodeType", "ArrayTypeName"),
      ("baseType", .object priceNode.fields)])]

def prices (length : Json.Members) : Node where
  id := 11
  kind := "VariableDeclaration"
  contract := none
  lang := .solidity
  fields := [("id", .ofNat 11), ("nodeType", "VariableDeclaration"), ("name", "prices"),
    ("storageLocation", "memory"), ("typeName", .object (pricesNode length).fields)]

def writtenLength : Json.Members := [("id", .ofNat 15), ("nodeType", "Literal"), ("value", "4")]

def namedLength : Json.Members := [("id", .ofNat 15), ("nodeType", "Identifier"), ("name", "SIZE")]

theorem arrayChain_prices {length : Json.Members} {l : Length} (h : l.IsOf (pricesNode length)) :
    ArrayChain (pricesNode length) [l, .dynamic] priceNode :=
  .level rfl h rfl (.level rfl rfl rfl (.base (n := priceNode) (by decide)))

theorem ArrayChain.paths_agree_written :
    ArrayChain (pricesNode writtenLength) [.literal 4, .dynamic] priceNode ∧
    priceNode.typeString? = some "uint256" ∧ EndsInBase "uint256" ∧
    (∃ ds, ofNode (pricesNode writtenLength) = .ok (ds, priceNode) ∧
      ofTypeString "uint256[][4]" = .ok (ds, "uint256")) ∧
    ∃ t, ofParameter ∅ "" false (prices writtenLength) = .ok t ∧
      t.sourceSignature = "uint256[][4]" := by
  have hdigits : "4" = Text.decimal 4 := by decide +kernel
  have hchain : ArrayChain (pricesNode writtenLength) [.literal 4, .dynamic] priceNode :=
    arrayChain_prices ⟨_, rfl, congrArg (some ∘ Json.string) hdigits⟩
  have hs : priceNode.typeString? = some "uint256" := rfl
  have hend : EndsInBase "uint256" := by decide +kernel
  have hplain : ∀ l ∈ [.literal 4, .dynamic], Length.IsPlain l := by decide
  have htext : "uint256" ++ groups [.literal 4, .dynamic] = "uint256[][4]" := by decide +kernel
  obtain ⟨-, -, hdimensions, hsignature⟩ := hchain.paths_agree_iff hs hend
  rw [htext] at hdimensions hsignature
  refine ⟨hchain, hs, hend, hdimensions.2 hplain, ?_⟩
  have hresolved : (ofParameter ∅ "" false (prices writtenLength)).toOption.isSome := by
    decide +kernel
  obtain ⟨t, ht⟩ := Option.isSome_iff_exists.1 hresolved
  have ht := Run.toOption_eq_some_iff.1 ht
  exact ⟨t, ht, (hsignature ∅ "" false (prices writtenLength) t rfl rfl ht).2 hplain⟩

theorem paths_disagree_named :
    ArrayChain (pricesNode namedLength) [.expression 4, .dynamic] priceNode ∧
    ofNode (pricesNode namedLength) = .ok ([-1, -1], priceNode) ∧
    ofTypeString "uint256[][4]" = .ok ([4, -1], "uint256") ∧
    ∃ t, ofParameter ∅ "" false (prices namedLength) = .ok t ∧
      t.sourceSignature = "uint256[][]" := by
  have hchain : ArrayChain (pricesNode namedLength) [.expression 4, .dynamic] priceNode :=
    arrayChain_prices ⟨_, rfl, rfl⟩
  have hsignature : (ofParameter ∅ "" false (prices namedLength)).toOption.map sourceSignature =
      some "uint256[][]" := by
    decide +kernel
  obtain ⟨t, ht, hsignature⟩ := Option.map_eq_some_iff.1 hsignature
  exact ⟨hchain, hchain.ofNode_eq, Run.toOption_eq_some_iff.1 (by decide +kernel), t,
    Run.toOption_eq_some_iff.1 ht, hsignature⟩

end Prices

end ContractModel.Dimensions
