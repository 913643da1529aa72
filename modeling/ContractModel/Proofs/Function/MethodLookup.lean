import ContractModel.Function.Lookup

/-! # Which methods are found

A method is found exactly if no space stands in its name and a public function has its signature
without spaces. So spaces count for nothing among the arguments, but they do behind the name, and a
function with a space in its own signature is never found.
-/

namespace ContractModel.Lookup

variable {method : String} {pub internal : List ContractFunction} {f : ContractFunction}

theorem space_notMem_withoutSpaces (s : String) : ' ' ∉ (withoutSpaces s).toList := by
  simp [withoutSpaces]

theorem withoutSpaces_eq_self {s : String} (h : ' ' ∉ s.toList) : withoutSpaces s = s := by
  have hkept : s.toList.filter (· ≠ ' ') = s.toList :=
    List.filter_eq_self.2 fun c hc => decide_eq_true (ne_of_mem_of_not_mem hc h)
  rw [withoutSpaces, hkept, String.ofList_toList]

/-- It does not matter whether spaces are left aside before or after the name is cut off. -/
theorem nameOf_withoutSpaces (s : String) :
    nameOf (withoutSpaces s) = withoutSpaces (nameOf s) := by
  rw [nameOf, withoutSpaces, withoutSpaces, nameOf, String.toList_ofList, String.toList_ofList,
    List.takeWhile_filter]
  congr 3
  funext c
  by_cases hc : c = ' ' <;> simp [hc]

theorem nameOf_signature (h : '(' ∉ f.name.toList) : nameOf f.signature = f.name := by
  have hname : ∀ c ∈ f.name.toList, decide (c ≠ '(') := fun c hc =>
    decide_eq_true (ne_of_mem_of_not_mem hc h)
  have hsplit : f.signature.toList = f.name.toList ++
      '(' :: (String.intercalate "," (f.arguments.map ParameterType.signature) ++ ")").toList := by
    simp [ContractFunction.signature, ContractFunction.signatureWith]
  rw [nameOf, hsplit, List.takeWhile_append_of_pos hname, List.takeWhile_cons_of_neg (by decide),
    List.append_nil, String.ofList_toList]

theorem verifyMethod_eq_ok_iff : verifyMethod method pub internal = .ok () ↔
    ∃ f ∈ pub, f.name = nameOf method ∧ f.signature = withoutSpaces method := by
  have hfound : (((pub.filter fun f => f.name == nameOf method).any fun f =>
      f.signature == withoutSpaces method) = true) ↔
        ∃ f ∈ pub, f.name = nameOf method ∧ f.signature = withoutSpaces method := by
    simp [List.any_eq_true]
  rw [← hfound, verifyMethod]
  split
  · next h => simp only [h, iff_true]; rfl
  · next h =>
    simp only [h, Bool.false_eq_true, iff_false]
    split <;> nofun

/-- A function with the signature has the name unless spaces stand in that of the method. -/
theorem name_eq_nameOf_iff (hopen : '(' ∉ f.name.toList) (h : f.signature = withoutSpaces method) :
    f.name = nameOf method ↔ ' ' ∉ (nameOf method).toList := by
  have hname : f.name = withoutSpaces (nameOf method) := by
    rw [← nameOf_withoutSpaces, ← h, nameOf_signature hopen]
  constructor
  · intro heq
    rw [← heq, hname]
    exact space_notMem_withoutSpaces _
  · intro hspace
    rw [hname, withoutSpaces_eq_self hspace]

/-- The method is found exactly if a public function has its signature, spaces left aside. -/
def FindsSignature (method : String) (pub internal : List ContractFunction) : Prop :=
  verifyMethod method pub internal = .ok () ↔
    ∃ f ∈ pub, withoutSpaces f.signature = withoutSpaces method

/-- No space stands in the name, and none in the signature of some function with that signature. -/
def IsSpacedWell (method : String) (pub : List ContractFunction) : Prop :=
  ' ' ∉ (nameOf method).toList ∧ ∃ f ∈ pub, f.signature = withoutSpaces method

theorem verifyMethod_eq_ok_iff_isSpacedWell (h : ∀ f ∈ pub, '(' ∉ f.name.toList) :
    verifyMethod method pub internal = .ok () ↔ IsSpacedWell method pub := by
  rw [verifyMethod_eq_ok_iff]
  constructor
  · rintro ⟨f, hf, hname, hsignature⟩
    exact ⟨(name_eq_nameOf_iff (h f hf) hsignature).1 hname, f, hf, hsignature⟩
  · rintro ⟨hspace, f, hf, hsignature⟩
    exact ⟨f, hf, (name_eq_nameOf_iff (h f hf) hsignature).2 hspace, hsignature⟩

/-- Methods are found by their signatures exactly if those that a function has, spaces left aside,
are spaced well. -/
theorem findsSignature_iff_isSpacedWell (h : ∀ f ∈ pub, '(' ∉ f.name.toList) :
    FindsSignature method pub internal ↔
      ((∃ f ∈ pub, withoutSpaces f.signature = withoutSpaces method) →
        IsSpacedWell method pub) := by
  have hhas : IsSpacedWell method pub →
      ∃ f ∈ pub, withoutSpaces f.signature = withoutSpaces method := by
    rintro ⟨-, f, hf, hsignature⟩
    refine ⟨f, hf, ?_⟩
    rw [hsignature, withoutSpaces_eq_self (space_notMem_withoutSpaces method)]
  rw [FindsSignature, verifyMethod_eq_ok_iff_isSpacedWell h]
  exact ⟨fun hfinds => hfinds.2, fun hspaced => ⟨hhas, hspaced⟩⟩

/-- A public function with arguments of elementary types. -/
def publicFunction (name : String) (arguments : List ParameterType) : ContractFunction :=
  { (default : ContractFunction) with name, arguments, visibility := .pub }

/-- Two overloads, and spaces in every place among the arguments. -/
theorem findsSignature_transfer :
    let pub := [publicFunction "transfer" [.elementary "address"],
      publicFunction "transfer" [.elementary "address", .elementary "uint256"]]
    (∀ f ∈ pub, '(' ∉ f.name.toList) ∧
      FindsSignature "transfer( address ,  uint256 )" pub [] ∧
      verifyMethod "transfer( address ,  uint256 )" pub [] = .ok () := by
  intro pub
  have hnames : ∀ f ∈ pub, '(' ∉ f.name.toList := by decide +kernel
  have hspaced : IsSpacedWell "transfer( address ,  uint256 )" pub := by
    unfold IsSpacedWell
    decide +kernel
  exact ⟨hnames, (findsSignature_iff_isSpacedWell hnames).2 fun _ => hspaced,
    (verifyMethod_eq_ok_iff_isSpacedWell hnames).2 hspaced⟩

/-- A method with a space behind its name, and one with a storage parameter. -/
theorem not_findsSignature_spaced :
    ¬ FindsSignature "transfer (address)" [publicFunction "transfer" [.elementary "address"]] [] ∧
      ¬ FindsSignature "total(Ledger storage)"
        [publicFunction "total" [{ ParameterType.elementary "Ledger" with isStorage := true }]]
        [] := by
  unfold FindsSignature
  rw [verifyMethod_eq_ok_iff, verifyMethod_eq_ok_iff]
  decide +kernel

end ContractModel.Lookup
