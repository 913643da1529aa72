import ContractModel.Proofs.Text.Numerals
import ContractModel.Proofs.Types.InterfaceType
import Mathlib.Data.List.TakeWhile

/-! # Source signatures of interface parameters

A type string is cut into a base and dimensions, and a source signature puts them together again.
The text comes back exactly if it writes no length with zeros in front of it.
-/

namespace ContractModel

namespace Dimensions

open ParameterType

/-- What stands between brackets: digits, without zeros in front of others. -/
structure IsPlainGroup (g : List Char) : Prop where
  digits : ∀ c ∈ g, Text.isDecimalDigit c
  short : Text.IsShort g

instance : DecidablePred IsPlainGroup := fun g =>
  decidable_of_iff (g.all Text.isDecimalDigit ∧ Text.IsShort g)
    ⟨fun h => ⟨List.all_eq_true.1 h.1, h.2⟩, fun h => ⟨List.all_eq_true.2 h.digits, h.short⟩⟩

/-- The groups in brackets behind a base, the last of which is the outermost. -/
def groupsText (gs : List (List Char)) : List Char := gs.flatMap fun g => '[' :: g ++ [']']

/-- A base with lengths of arrays behind it that have no zeros in front. -/
def HasPlainLengths (s : String) : Prop :=
  ∃ base gs, EndsInBase base ∧ (∀ g ∈ gs, IsPlainGroup g) ∧
    s.toList = base.toList ++ groupsText gs

variable {d : Int} {ds : List Int} {g cs rest : List Char} {gs : List (List Char)}
  {s base : String}

@[simp] theorem groupsText_nil : groupsText [] = [] := rfl

@[simp] theorem groupsText_snoc (gs : List (List Char)) (g : List Char) :
    groupsText (gs ++ [g]) = groupsText gs ++ '[' :: g ++ [']'] := by
  simp [groupsText]

theorem isPlainGroup_groupOf (d : Int) : IsPlainGroup (groupOf d) := by
  refine ⟨fun c hc => isDecimalDigit_of_mem_groupOf hc, ?_⟩
  unfold groupOf
  split
  · simp [Text.IsShort]
  · exact Text.isShort_digits (by decide) (by decide) _

theorem toList_dimensionsText (hds : Lengths ds) :
    (dimensionsText ds).toList = groupsText (ds.map groupOf).reverse := by
  induction ds with
  | nil => rfl
  | cons d ds ih =>
    have hd := hds d List.mem_cons_self
    have hds : Lengths ds := fun e he => hds e (List.mem_cons_of_mem _ he)
    simp [dimensionsText_cons, toList_dimensionText hd, ih hds]

theorem ofGroup_eq_ok (hg : ∀ c ∈ g, Text.isDecimalDigit c) (h : ofGroup g = .ok d) :
    (g = [] ∧ d = -1) ∨ g ≠ [] ∧ ∃ n : Nat, d = n ∧ Text.readDigits 10 0 g = some n := by
  unfold ofGroup at h
  split at h
  · next hempty =>
    cases h
    exact .inl ⟨by simpa using hempty, rfl⟩
  · next hempty =>
    obtain ⟨n, rfl, hn⟩ := Text.exists_of_readInt (by simpa using hg) h
    exact .inr ⟨by simpa using hempty, n, rfl, by simpa using hn⟩

theorem neg_one_le_of_ofGroup (hg : ∀ c ∈ g, Text.isDecimalDigit c) (h : ofGroup g = .ok d) :
    -1 ≤ d := by
  rcases ofGroup_eq_ok hg h with ⟨-, rfl⟩ | ⟨-, n, rfl, -⟩ <;> omega

/-- The group that a length is read from is the one it is written as. -/
theorem groupOf_of_ofGroup (hg : IsPlainGroup g) (h : ofGroup g = .ok d) : groupOf d = g := by
  rcases ofGroup_eq_ok hg.digits h with ⟨rfl, rfl⟩ | ⟨hne, n, rfl, hn⟩
  · rfl
  · have hnat : (n : Int) ≠ -1 := by omega
    rw [groupOf, if_neg hnat, Int.toNat_natCast, Text.digits_of_readDigits hne hg.short hn]

theorem isDecimalDigit_of_lastGroup? (h : lastGroup? cs = some (g, rest)) :
    ∀ c ∈ g, Text.isDecimalDigit c := by
  unfold lastGroup? at h
  split at h
  · split at h
    · cases h
      intro c hc
      exact List.mem_takeWhile_imp (List.mem_reverse.1 hc)
    · cases h
  · cases h

theorem takeGroups_eq_ok (h : takeGroups cs = .ok (ds, rest)) :
    Lengths ds ∧ lastGroup? rest = none := by
  induction hn : cs.length using Nat.strongRecOn generalizing cs ds with
  | _ n ih =>
    cases hlast : lastGroup? cs with
    | none =>
      rw [takeGroups_of_none hlast] at h
      cases h
      exact ⟨by simp [Lengths], hlast⟩
    | some found =>
      obtain ⟨g, cs'⟩ := found
      rw [takeGroups_of_some hlast] at h
      obtain ⟨d, hd, h⟩ := Run.except_bind_eq_ok_iff.1 h
      obtain ⟨⟨ds', rest'⟩, hds, h⟩ := Run.except_bind_eq_ok_iff.1 h
      cases h
      have hlt : cs'.length < n := hn ▸ length_lastGroup? hlast
      obtain ⟨hlengths, hrest⟩ := ih _ hlt hds rfl
      have hd := neg_one_le_of_ofGroup (isDecimalDigit_of_lastGroup? hlast) hd
      exact ⟨List.forall_mem_cons.2 ⟨hd, hlengths⟩, hrest⟩

theorem ofTypeString_eq_ok (h : ofTypeString s = .ok (ds, base)) :
    ∃ rest, takeGroups s.toList.reverse = .ok (ds, rest) ∧ base = String.ofList rest.reverse := by
  unfold ofTypeString at h
  split at h
  · next hgroups =>
    cases h
    exact ⟨_, hgroups, rfl⟩
  · cases h

/-- Groups without zeros in front are read as the lengths that they are written as. -/
theorem takeGroups_groupsText (hgs : ∀ g ∈ gs, IsPlainGroup g) (hcs : lastGroup? cs = none)
    (h : takeGroups ((groupsText gs).reverse ++ cs) = .ok (ds, rest)) :
    (ds.map groupOf).reverse = gs ∧ rest = cs := by
  induction gs using List.reverseRecOn generalizing ds with
  | nil =>
    rw [groupsText_nil, List.reverse_nil, List.nil_append, takeGroups_of_none hcs] at h
    cases h
    exact ⟨rfl, rfl⟩
  | append_singleton gs g ih =>
    have hg := hgs g (by simp)
    have htext : (groupsText (gs ++ [g])).reverse ++ cs =
        ']' :: (g.reverse ++ '[' :: ((groupsText gs).reverse ++ cs)) := by simp
    rw [htext, takeGroups_of_some (lastGroup?_group hg.digits _)] at h
    obtain ⟨d, hd, h⟩ := Run.except_bind_eq_ok_iff.1 h
    obtain ⟨⟨ds', rest'⟩, hds, h⟩ := Run.except_bind_eq_ok_iff.1 h
    cases h
    obtain ⟨hmap, rfl⟩ := ih (fun g hg => hgs g (List.mem_append_left _ hg)) hds
    simp [hmap, groupOf_of_ofGroup hg hd]

/-- A type string that is read comes back exactly if it writes no length with zeros in front. -/
theorem append_dimensionsText_eq_iff (h : ofTypeString s = .ok (ds, base)) :
    base ++ dimensionsText ds = s ↔ HasPlainLengths s := by
  obtain ⟨rest, hgroups, rfl⟩ := ofTypeString_eq_ok h
  obtain ⟨hds, hrest⟩ := takeGroups_eq_ok hgroups
  constructor
  · intro htext
    refine ⟨String.ofList rest.reverse, (ds.map groupOf).reverse, ?_, ?_, ?_⟩
    · simpa [EndsInBase] using hrest
    · intro g hg
      obtain ⟨d, -, rfl⟩ := List.mem_map.1 (List.mem_reverse.1 hg)
      exact isPlainGroup_groupOf d
    · rw [← htext, String.toList_append, toList_dimensionsText hds]
  · rintro ⟨base, gs, hbase, hgs, htext⟩
    rw [htext, List.reverse_append] at hgroups
    obtain ⟨hmap, rfl⟩ := takeGroups_groupsText hgs hbase hgroups
    apply String.toList_injective
    simp [toList_dimensionsText hds, hmap, htext]

end Dimensions

namespace InterfaceParameter

/-- The type that the interface shows: the internal one, where it is known. -/
def shownType (p : InterfaceParameter) : String := p.internalType.getD p.typeString

end InterfaceParameter

namespace ParameterType

open Dimensions

variable {types : List SourceType} {p : InterfaceParameter} {ps : List InterfaceParameter}
  {t : ParameterType} {ts : List ParameterType}

theorem isStorage_of_ofInterface (h : ofInterface types p = .ok t) : t.isStorage = false := by
  obtain ⟨ts, ds, base, -, -, ⟨-, rfl⟩ | ⟨s, shown, -, -, rfl⟩⟩ := ofInterface_eq_ok h <;> rfl

/-- The type is made of the dimensions and the base that the shown type is read as. -/
theorem ofTypeString_shownType (h : ofInterface types p = .ok t) :
    ofTypeString p.shownType = .ok (t.dimensions, t.base) := by
  obtain ⟨ts, ds, base, -, hbase, ⟨hnone, rfl⟩ | ⟨s, shown, hsome, hshown, rfl⟩⟩ :=
    ofInterface_eq_ok h
  · rw [InterfaceParameter.shownType, hnone]
    exact hbase
  · rw [InterfaceParameter.shownType, hsome]
    exact hshown

/-- A parameter is shown as the interface shows it exactly if that text has plain lengths. -/
theorem sourceSignature_eq_shownType_iff (h : ofInterface types p = .ok t) :
    t.sourceSignature = p.shownType ↔ HasPlainLengths p.shownType := by
  rw [← append_dimensionsText_eq_iff (ofTypeString_shownType h), sourceSignature, ending,
    isStorage_of_ofInterface h]
  simp

theorem map_sourceSignature_eq (hps : ∀ p ∈ ps, HasPlainLengths p.shownType)
    (h : ps.mapM (ofInterface types) = .ok ts) :
    ts.map sourceSignature = ps.map InterfaceParameter.shownType := by
  have hall := Run.forall₂_of_mapM_eq_ok h
  clear h
  induction hall with
  | nil => rfl
  | cons hp _ ih =>
    obtain ⟨hplain, hps⟩ := List.forall_mem_cons.1 hps
    rw [List.map_cons, List.map_cons, (sourceSignature_eq_shownType_iff hp).2 hplain, ih hps]

end ParameterType

end ContractModel
