import ContractModel.Proofs.Run
import ContractModel.Types.Dimensions

/-! # Dimensions in type strings

The text of dimensions behind a base is read back as these dimensions, as long as their lengths are
64-bit integers and the base itself ends in no dimension.
-/

namespace ContractModel.Dimensions

open ParameterType

/-- The lengths of arrays, where `-1` stands for a dynamic one. -/
def Lengths (ds : List Int) : Prop := ∀ d ∈ ds, -1 ≤ d

instance : DecidablePred Lengths := fun ds => inferInstanceAs (Decidable (∀ d ∈ ds, -1 ≤ d))

/-- The text ends in no dimension. -/
def EndsInBase (base : String) : Prop := lastGroup? base.toList.reverse = none

instance : DecidablePred EndsInBase := fun base =>
  inferInstanceAs (Decidable (lastGroup? base.toList.reverse = none))

/-- The digits between the brackets of a dimension. -/
def groupOf (d : Int) : List Char := if d = -1 then [] else Text.digits 10 d.toNat

variable {d : Int} {ds : List Int} {cs : List Char} {base : String}

theorem toList_dimensionText (h : -1 ≤ d) :
    (dimensionText d).toList = '[' :: groupOf d ++ [']'] := by
  unfold dimensionText groupOf
  split
  · rfl
  · obtain ⟨n, rfl⟩ := Int.eq_ofNat_of_zero_le (by omega : 0 ≤ d)
    simp [Text.signedDecimal, Text.decimal]

theorem isDecimalDigit_of_mem_groupOf {c : Char} (h : c ∈ groupOf d) : Text.isDecimalDigit c := by
  unfold groupOf at h
  split at h
  · cases h
  · obtain ⟨n, hn, rfl⟩ := Text.exists_of_mem_digits (by decide) h
    exact Text.isDecimalDigit_digitChar n hn

/-- Digits in brackets are a group. -/
theorem lastGroup?_group {g : List Char} (hg : ∀ c ∈ g, Text.isDecimalDigit c) (cs : List Char) :
    lastGroup? (']' :: (g.reverse ++ '[' :: cs)) = some (g, cs) := by
  have hall : ∀ c ∈ g.reverse, Text.isDecimalDigit c := by simpa using hg
  simp only [lastGroup?, List.dropWhile_append_of_pos hall, List.takeWhile_append_of_pos hall]
  simp [Text.not_isDecimalDigit_bracket]

theorem lastGroup?_dimensionText (h : -1 ≤ d) (cs : List Char) :
    lastGroup? ((dimensionText d).toList.reverse ++ cs) = some (groupOf d, cs) := by
  have hgroup := lastGroup?_group (fun _ hc => isDecimalDigit_of_mem_groupOf (d := d) hc) cs
  simpa [toList_dimensionText h] using hgroup

theorem ofGroup_groupOf (h : -1 ≤ d) :
    ofGroup (groupOf d) = if d ≤ Text.maxInt then .ok d else .error .tooLarge := by
  unfold ofGroup groupOf
  split
  · next hd =>
    subst hd
    rfl
  · obtain ⟨n, rfl⟩ := Int.eq_ofNat_of_zero_le (by omega : 0 ≤ d)
    have hne : (Text.digits 10 n).isEmpty = false := by simp [Text.digits_ne_nil]
    have hread := Text.readInt_decimal n
    rw [Text.decimal] at hread
    simp only [Int.toNat_natCast, hne, Bool.false_eq_true, if_false, hread]
    simp only [Int.ofNat_le]

theorem groupOf_injective {e : Int} (hd : -1 ≤ d) (he : -1 ≤ e) (h : groupOf d = groupOf e) :
    d = e := by
  unfold groupOf at h
  split at h
  · next hd' =>
    split at h
    · next he' => rw [hd', he']
    · exact absurd h.symm (Text.digits_ne_nil 10 _)
  · split at h
    · exact absurd h (Text.digits_ne_nil 10 _)
    · have := Text.digits_injective (by decide) (by decide) h
      omega

theorem takeGroups_of_none (h : lastGroup? cs = none) : takeGroups cs = .ok ([], cs) := by
  rw [takeGroups]
  split
  · rfl
  · next heq => cases h.symm.trans heq

theorem takeGroups_of_some {digits rest : List Char} (h : lastGroup? cs = some (digits, rest)) :
    takeGroups cs = (do
      let d ← ofGroup digits
      let (more, base) ← takeGroups rest
      return (d :: more, base)) := by
  rw [takeGroups]
  split
  · next heq => cases h.symm.trans heq
  · next heq =>
    cases h.symm.trans heq
    rfl

theorem dimensionsText_cons (d : Int) (ds : List Int) :
    dimensionsText (d :: ds) = dimensionsText ds ++ dimensionText d := by
  simp [dimensionsText, String.join_append]

theorem toList_reverse_dimensionsText_cons (d : Int) (ds : List Int) :
    (dimensionsText (d :: ds)).toList.reverse =
      (dimensionText d).toList.reverse ++ (dimensionsText ds).toList.reverse := by
  rw [dimensionsText_cons, String.toList_append, List.reverse_append]

theorem dimensionsText_injective {es : List Int} (hds : Lengths ds) (hes : Lengths es)
    (h : dimensionsText ds = dimensionsText es) : ds = es := by
  induction ds generalizing es with
  | nil =>
    cases es with
    | nil => rfl
    | cons e es =>
      have hlast : lastGroup? (dimensionsText []).toList.reverse = none := rfl
      rw [h, toList_reverse_dimensionsText_cons,
        lastGroup?_dimensionText (hes e List.mem_cons_self)] at hlast
      cases hlast
  | cons d ds ih =>
    have hd := hds d List.mem_cons_self
    have hlast := lastGroup?_dimensionText hd (dimensionsText ds).toList.reverse
    rw [← toList_reverse_dimensionsText_cons, h] at hlast
    cases es with
    | nil => cases hlast
    | cons e es =>
      have he := hes e List.mem_cons_self
      rw [toList_reverse_dimensionsText_cons, lastGroup?_dimensionText he, Option.some.injEq,
        Prod.mk.injEq, List.reverse_inj, String.toList_inj] at hlast
      rw [groupOf_injective he hd hlast.1, ih (fun d hd => hds d (List.mem_cons_of_mem _ hd))
        (fun e he => hes e (List.mem_cons_of_mem _ he)) hlast.2.symm]

theorem takeGroups_dimensionsText_iff (hds : Lengths ds) (hcs : lastGroup? cs = none)
    {r : List Int × List Char} :
    takeGroups ((dimensionsText ds).toList.reverse ++ cs) = .ok r ↔
      (∀ d ∈ ds, d ≤ Text.maxInt) ∧ r = (ds, cs) := by
  induction ds generalizing r with
  | nil =>
    have hnil : (dimensionsText []).toList.reverse ++ cs = cs := rfl
    rw [hnil, takeGroups_of_none hcs]
    simp [eq_comm]
  | cons d ds ih =>
    have hd : -1 ≤ d := hds d List.mem_cons_self
    have hsplit : (dimensionsText (d :: ds)).toList.reverse ++ cs =
        (dimensionText d).toList.reverse ++ ((dimensionsText ds).toList.reverse ++ cs) := by
      rw [toList_reverse_dimensionsText_cons, List.append_assoc]
    have ih := @ih (fun e he => hds e (List.mem_cons_of_mem _ he))
    rw [hsplit, takeGroups_of_some (lastGroup?_dimensionText hd _), ofGroup_groupOf hd,
      Run.except_bind_eq_ok_iff]
    constructor
    · rintro ⟨e, he, h⟩
      obtain ⟨more, hmore, h⟩ := Run.except_bind_eq_ok_iff.1 h
      obtain ⟨hle, rfl⟩ := ih.1 hmore
      cases h
      split at he
      · next hd' =>
        cases he
        exact ⟨List.forall_mem_cons.2 ⟨hd', hle⟩, rfl⟩
      · cases he
    · rintro ⟨hle, rfl⟩
      obtain ⟨hd', hle⟩ := List.forall_mem_cons.1 hle
      refine ⟨d, if_pos hd', ?_⟩
      exact Run.except_bind_eq_ok_iff.2 ⟨(ds, cs), ih.2 ⟨hle, rfl⟩, rfl⟩

/-- Dimensions behind a base are read back. -/
theorem ofTypeString_append_iff (hds : Lengths ds) (hbase : EndsInBase base)
    {r : List Int × String} :
    ofTypeString (base ++ dimensionsText ds) = .ok r ↔
      (∀ d ∈ ds, d ≤ Text.maxInt) ∧ r = (ds, base) := by
  have hreverse : (base ++ dimensionsText ds).toList.reverse =
      (dimensionsText ds).toList.reverse ++ base.toList.reverse := by
    rw [String.toList_append, List.reverse_append]
  have htake := @takeGroups_dimensionsText_iff ds _ hds hbase
  rw [ofTypeString, hreverse]
  cases hgroups : takeGroups ((dimensionsText ds).toList.reverse ++ base.toList.reverse) with
  | error fault =>
    constructor
    · rintro ⟨⟩
    · rintro ⟨hle, -⟩
      cases hgroups.symm.trans (htake.2 ⟨hle, rfl⟩)
  | ok found =>
    obtain ⟨hle, rfl⟩ := htake.1 hgroups
    simp only [List.reverse_reverse, String.ofList_toList, Except.ok.injEq]
    exact ⟨fun h => ⟨hle, h.symm⟩, fun h => h.2.symm⟩

/-- The base of a type's text. -/
def base? (s : String) : Option String := (ofTypeString s).toOption.map Prod.snd

theorem base?_of_eq_ok {s base : String} {ds : List Int} (h : ofTypeString s = .ok (ds, base)) :
    base? s = some base := by
  rw [base?, h]
  rfl

end ContractModel.Dimensions
