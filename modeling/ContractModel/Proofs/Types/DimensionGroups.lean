import ContractModel.Proofs.Types.SourceSignature

/-! # Groups behind a base

A type string is a base that ends in no group, and groups behind it. Dimensions written behind a
base are read back, and a type string whose groups are written as lengths are is written again by
what it is read as.
-/

namespace ContractModel.Dimensions

open ParameterType

/-- The text ends in brackets with digits of any script, or with nothing, between them. -/
def EndsInGroup (s : String) : Prop :=
  ∃ front g, (∀ c ∈ g, Text.isDecimalDigit c) ∧ s.toList = front ++ '[' :: g ++ [']']

/-- What stands between brackets is nothing, or an integer below the limit in decimal digits without
zeros in front of others. -/
structure IsCanonicalGroup (g : List Char) : Prop where
  short : Text.IsShort g
  fits : ∃ n < 0x8000000000000000, Text.readDigits 10 0 g = some n

/-- All groups at the end of the text are canonical. -/
def HasCanonicalGroups (s : String) : Prop :=
  ∃ base gs, ¬ EndsInGroup base ∧ (∀ g ∈ gs, IsCanonicalGroup g) ∧
    s.toList = base.toList ++ groupsText gs

variable {cs g rest : List Char} {gs : List (List Char)} {ds : List Int} {s base : String}

/-- The last group is the text behind the last opening bracket. -/
theorem eq_of_lastGroup? (h : lastGroup? cs = some (g, rest)) :
    cs = ']' :: (g.reverse ++ '[' :: rest) := by
  unfold lastGroup? at h
  split at h
  · next cs =>
    split at h
    · next rest' hdrop =>
      cases h
      rw [List.reverse_reverse, ← hdrop, List.takeWhile_append_dropWhile]
    · cases h
  · cases h

theorem endsInBase_iff_not_endsInGroup : EndsInBase s ↔ ¬ EndsInGroup s := by
  unfold EndsInBase
  constructor
  · rintro hnone ⟨front, g, hg, hs⟩
    have hreverse : s.toList.reverse = ']' :: (g.reverse ++ '[' :: front.reverse) := by simp [hs]
    rw [hreverse, lastGroup?_group hg] at hnone
    cases hnone
  · intro hnot
    cases hlast : lastGroup? s.toList.reverse with
    | none => rfl
    | some found =>
      obtain ⟨g, rest⟩ := found
      refine absurd ⟨rest.reverse, g, isDecimalDigit_of_lastGroup? hlast, ?_⟩ hnot
      have hs := congrArg List.reverse (eq_of_lastGroup? hlast)
      simpa using hs

instance : DecidablePred EndsInGroup := fun s =>
  decidable_of_iff (¬ EndsInBase s) (by rw [endsInBase_iff_not_endsInGroup, not_not])

/-- A canonical group is how a dimension is written. -/
theorem IsCanonicalGroup.exists_groupOf (h : IsCanonicalGroup g) :
    ∃ d : Int, -1 ≤ d ∧ d ≤ Text.maxInt ∧ groupOf d = g := by
  by_cases hne : g = []
  · subst hne
    exact ⟨-1, by decide, by decide, rfl⟩
  · obtain ⟨n, hn, hread⟩ := h.fits
    have hnat : (n : Int) ≠ -1 := by omega
    refine ⟨n, by omega, ?_, ?_⟩
    · rw [Text.maxInt]
      omega
    · rw [groupOf, if_neg hnat, Int.toNat_natCast, Text.digits_of_readDigits hne h.short hread]

/-- Canonical groups are the text of dimensions. -/
theorem exists_dimensionsText (h : ∀ g ∈ gs, IsCanonicalGroup g) :
    ∃ ds, Lengths ds ∧ (∀ d ∈ ds, d ≤ Text.maxInt) ∧
      (dimensionsText ds).toList = groupsText gs := by
  suffices hds : ∃ ds : List Int, Lengths ds ∧ (∀ d ∈ ds, d ≤ Text.maxInt) ∧
      (ds.map groupOf).reverse = gs by
    obtain ⟨ds, hlengths, hle, rfl⟩ := hds
    exact ⟨ds, hlengths, hle, toList_dimensionsText hlengths⟩
  induction gs using List.reverseRecOn with
  | nil => exact ⟨[], by simp [Lengths], by simp, rfl⟩
  | append_singleton gs g ih =>
    obtain ⟨hgs, hg⟩ := List.forall_mem_append.1 h
    obtain ⟨ds, hlengths, hle, rfl⟩ := ih hgs
    obtain ⟨d, hd, hdle, rfl⟩ := (hg g List.mem_cons_self).exists_groupOf
    refine ⟨d :: ds, List.forall_mem_cons.2 ⟨hd, hlengths⟩, List.forall_mem_cons.2 ⟨hdle, hle⟩, ?_⟩
    rw [List.map_cons, List.reverse_cons]

/-- Dimensions behind a base that ends in no group are read back. -/
theorem ofTypeString_append (hbase : ¬ EndsInGroup base)
    (hds : ∀ d ∈ ds, d = -1 ∨ 0 ≤ d ∧ d < 0x8000000000000000) :
    ofTypeString (base ++ dimensionsText ds) = .ok (ds, base) := by
  have hlengths : Lengths ds := fun d hd => by
    have := hds d hd
    omega
  refine (ofTypeString_append_iff hlengths (endsInBase_iff_not_endsInGroup.2 hbase)).2 ⟨?_, rfl⟩
  intro d hd
  have := hds d hd
  rw [Text.maxInt]
  omega

/-- A type string with canonical groups is read as what it is made of. -/
theorem HasCanonicalGroups.exists_read (h : HasCanonicalGroups s) :
    ∃ ds base, ofTypeString s = .ok (ds, base) ∧ base ++ dimensionsText ds = s ∧
      ¬ EndsInGroup base := by
  obtain ⟨base, gs, hbase, hgs, hs⟩ := h
  obtain ⟨ds, hlengths, hle, htext⟩ := exists_dimensionsText hgs
  obtain rfl : base ++ dimensionsText ds = s := by
    rw [← String.toList_inj, String.toList_append, htext, hs]
  have hbase' : EndsInBase base := endsInBase_iff_not_endsInGroup.2 hbase
  exact ⟨ds, base, (ofTypeString_append_iff hlengths hbase').2 ⟨hle, rfl⟩, rfl, hbase⟩

/-- Reading and writing dimensions undo each other: what is written behind a base that ends in no
group is read as these dimensions and this base, and a type string with canonical groups is read as
dimensions and a base that write it again. -/
theorem dimensions_writtenAndRead :
    (∀ base ds, ¬ EndsInGroup base → (∀ d ∈ ds, d = -1 ∨ 0 ≤ d ∧ d < 0x8000000000000000) →
      ofTypeString (base ++ dimensionsText ds) = .ok (ds, base)) ∧
    (∀ s, HasCanonicalGroups s → ∃ ds base, ofTypeString s = .ok (ds, base)) ∧
    ∀ s ds base, HasCanonicalGroups s → ofTypeString s = .ok (ds, base) →
      base ++ dimensionsText ds = s ∧ ¬ EndsInGroup base := by
  refine ⟨fun base ds => ofTypeString_append, fun s hs => ?_, fun s ds base hs hok => ?_⟩
  · obtain ⟨ds, base, hok, -⟩ := hs.exists_read
    exact ⟨ds, base, hok⟩
  · obtain ⟨ds', base', hok', hwritten⟩ := hs.exists_read
    cases hok.symm.trans hok'
    exact hwritten

/-- Three levels, of which the innermost is dynamic. -/
theorem dimensions_writtenAndRead_nested :
    ofTypeString ("uint256[" ++ dimensionsText [0x7fffffffffffffff, 0, -1]) =
      .ok ([0x7fffffffffffffff, 0, -1], "uint256[") ∧
    HasCanonicalGroups "bytes][][10]" ∧ ofTypeString "bytes][][10]" = .ok ([10, -1], "bytes]") ∧
    "bytes]" ++ dimensionsText [10, -1] = "bytes][][10]" ∧ ¬ EndsInGroup "bytes]" := by
  have hgroups : HasCanonicalGroups "bytes][][10]" := by
    refine ⟨"bytes]", [[], ['1', '0']], by decide, ?_, by decide⟩
    simp only [List.forall_mem_cons, List.not_mem_nil, false_implies, implies_true, and_true]
    exact ⟨⟨by decide, 0, by decide, rfl⟩, ⟨by decide, 10, by decide, rfl⟩⟩
  have hread : ofTypeString "bytes][][10]" = .ok ([10, -1], "bytes]") := by decide +kernel
  refine ⟨dimensions_writtenAndRead.1 _ _ (by decide) (by decide), hgroups, hread, ?_⟩
  exact dimensions_writtenAndRead.2.2 _ _ _ hgroups hread

end ContractModel.Dimensions
