import ContractModel.Proofs.Build.Overloads
import ContractModel.Proofs.Function.Agreement
import Mathlib.Data.Prod.Lex
import Mathlib.Data.String.Basic

/-! # Representatives of all methods

The list of all methods in a primary contract is in order of the signatures and has no two functions
that are the same internally. It keeps each method unless it keeps an earlier one that is the same
internally.
-/

namespace ContractModel

namespace ContractFunction

variable {f g : ContractFunction} {fs : List ContractFunction}

/-- The key that functions are ordered by. -/
def orderKey (f : ContractFunction) : String ×ₗ String := toLex (f.sourceSignature, f.signature)

theorem le_iff : f.le g ↔ f.orderKey ≤ g.orderKey := by
  simp [le, orderKey, Prod.Lex.toLex_le_toLex]

theorem sort_perm (fs : List ContractFunction) : (sort fs).Perm fs := Sorting.sort_perm fs

theorem pairwise_sort (fs : List ContractFunction) :
    (sort fs).Pairwise fun f g => f.orderKey ≤ g.orderKey := by
  have htotal : ∀ f g : ContractFunction, f.le g ∨ g.le f := by
    intro f g
    simpa only [le_iff] using le_total f.orderKey g.orderKey
  have htrans : ∀ f g k : ContractFunction, f.le g → g.le k → f.le k := by
    intro f g k
    simpa only [le_iff] using le_trans
  exact (Sorting.pairwise_sort htotal htrans fs).imp le_iff.1

end ContractFunction

namespace BuildUnit

open ContractFunction

variable {f : ContractFunction} {fs unique : List ContractFunction}
  {kept : List (ContractFunction × Nat)}

/-- Representatives of functions. A function is left out only for one that is kept, stands in front
of it and is the same internally. -/
structure Represents (fs all : List ContractFunction) : Prop where
  sorted : all.Pairwise fun f g => f.orderKey ≤ g.orderKey
  apart : all.Pairwise fun f g => ¬ f.sameInternally g ∧ ¬ g.sameInternally f
  /-- Those kept, with their places among the functions. -/
  first : ∃ kept : List (ContractFunction × Nat), kept.Sublist fs.zipIdx ∧
    (kept.map Prod.fst).Perm all ∧
    ∀ p ∈ fs.zipIdx, p ∉ kept → ∃ q ∈ kept, q.2 < p.2 ∧ q.1.sameInternally p.1

/-- The functions that are kept, one after the other, with their places. -/
structure Keeps (fs : List ContractFunction) (kept : List (ContractFunction × Nat)) : Prop where
  sublist : kept.Sublist fs.zipIdx
  functions : kept.map Prod.fst = fs.foldl addMethod []
  covered : ∀ p ∈ fs.zipIdx, p ∉ kept → ∃ q ∈ kept, q.2 < p.2 ∧ q.1.sameInternally p.1

theorem zipIdx_snoc (fs : List ContractFunction) (f : ContractFunction) :
    (fs ++ [f]).zipIdx = fs.zipIdx ++ [(f, fs.length)] := by
  simp [List.zipIdx_append]

theorem foldl_addMethod_snoc (fs : List ContractFunction) (f : ContractFunction) :
    (fs ++ [f]).foldl addMethod [] = addMethod (fs.foldl addMethod []) f := by
  simp

theorem Keeps.snoc (h : Keeps fs kept) (f : ContractFunction) :
    ∃ kept', Keeps (fs ++ [f]) kept' := by
  have hlt : ∀ p ∈ kept, p.2 < fs.length := by
    intro p hp
    simpa using List.snd_lt_of_mem_zipIdx (h.sublist.subset hp)
  rcases addMethod_cases (fs.foldl addMethod []) f with ⟨heq, g, hg, hgf⟩ | ⟨heq, -⟩
  -- the function that is left out has the last place, so whatever was kept stands in front of it
  · obtain ⟨q, hq, rfl⟩ := List.mem_map.1 (h.functions ▸ hg)
    refine ⟨kept, ?_, ?_, ?_⟩
    · rw [zipIdx_snoc]
      exact h.sublist.trans (List.sublist_append_left _ _)
    · rw [foldl_addMethod_snoc, heq, h.functions]
    · intro p hp hnot
      rw [zipIdx_snoc, List.mem_append, List.mem_singleton] at hp
      rcases hp with hp | rfl
      · exact h.covered p hp hnot
      · exact ⟨q, hq, hlt q hq, hgf⟩
  · refine ⟨kept ++ [(f, fs.length)], ?_, ?_, ?_⟩
    · rw [zipIdx_snoc]
      exact h.sublist.append (.refl _)
    · rw [foldl_addMethod_snoc, heq, List.map_append, h.functions, List.map_singleton]
    · intro p hp hnot
      rw [zipIdx_snoc, List.mem_append] at hp
      rw [List.mem_append, not_or] at hnot
      obtain ⟨q, hq, hbefore⟩ := h.covered p (hp.resolve_right hnot.2) hnot.1
      exact ⟨q, List.mem_append_left _ hq, hbefore⟩

theorem exists_keeps (fs : List ContractFunction) : ∃ kept, Keeps fs kept := by
  induction fs using List.reverseRecOn with
  | nil => exact ⟨[], .refl _, rfl, by simp⟩
  | append_singleton fs f ih =>
    obtain ⟨kept, hkept⟩ := ih
    exact hkept.snoc f

theorem pairwise_addMethod (h : unique.Pairwise fun f g => ¬ f.sameInternally g)
    (f : ContractFunction) : (addMethod unique f).Pairwise fun f g => ¬ f.sameInternally g := by
  rcases addMethod_cases unique f with ⟨heq, -⟩ | ⟨heq, hnone⟩
  · rwa [heq]
  · rw [heq, List.pairwise_append]
    exact ⟨h, List.pairwise_singleton _ f, by simpa using hnone⟩

theorem pairwise_foldl_addMethod (fs : List ContractFunction) :
    (fs.foldl addMethod []).Pairwise fun f g => ¬ f.sameInternally g := by
  induction fs using List.reverseRecOn with
  | nil => exact .nil
  | append_singleton fs f ih =>
    rw [foldl_addMethod_snoc]
    exact pairwise_addMethod ih f

theorem pairwise_uniqueMethods (fs : List ContractFunction) :
    (uniqueMethods fs).Pairwise fun f g => ¬ f.sameInternally g :=
  ((sort_perm _).pairwise_iff not_sameInternally_symm).2 (pairwise_foldl_addMethod fs)

theorem uniqueMethods_represents (fs : List ContractFunction) :
    Represents fs (uniqueMethods fs) := by
  obtain ⟨kept, hkept⟩ := exists_keeps fs
  refine ⟨pairwise_sort _, ?_, kept, hkept.sublist, ?_, hkept.covered⟩
  · apply (pairwise_uniqueMethods fs).imp
    intro f g hfg
    exact ⟨hfg, not_sameInternally_symm hfg⟩
  · rw [hkept.functions]
    exact (sort_perm _).symm

end BuildUnit

namespace Build

variable {prototypes : List String} {found : FoundUnit} {s s' : BuildState}

/-- The primary contract of an added unit lists representatives of the methods of all its
contracts, and nothing else. -/
theorem allMethods_represents (h : (addUnit prototypes found).run.run s = (.ok (), s')) :
    ∃ u c, s'.model.get? (BuildModel.key found.unit.primaryContract found.unit.address) = some u ∧
      u.contracts = [c] ∧ c.name = found.unit.primaryContract ∧
      (∀ f ∈ c.allMethods, ∃ d ∈ found.unit.contracts, f ∈ d.methods) ∧
      BuildUnit.Represents found.unit.methods c.allMethods := by
  obtain ⟨u, c, hget, hcontracts, hname, hall⟩ := get?_model_addUnit h
  refine ⟨u, c, hget, hcontracts, hname, ?_, ?_⟩
  · intro f hf
    rw [hall] at hf
    exact List.mem_flatMap.1 (BuildUnit.mem_of_mem_uniqueMethods hf)
  · rw [hall]
    exact BuildUnit.uniqueMethods_represents found.unit.methods

/-- A unit with three overloads, one of them for an array of what another one takes. -/
theorem allMethods_represents_overloads : ∃ s' u c,
    (addUnit [] (unitWith [overload "uint256", overload "uint256[]", overload "address"])).run.run
      (.start ⟨"/", ∅⟩) = (.ok (), s') ∧
    s'.model.get? (BuildModel.key "T" "") = some u ∧ u.contracts = [c] ∧
    BuildUnit.Represents [overload "uint256", overload "uint256[]", overload "address"]
      c.allMethods := by
  obtain ⟨s', h⟩ := exists_run_unitWith
    [overload "uint256", overload "uint256[]", overload "address"] (.start ⟨"/", ∅⟩)
  obtain ⟨u, c, hget, hcontracts, -, -, hrepresents⟩ := allMethods_represents h
  exact ⟨s', u, c, h, hget, hcontracts, hrepresents⟩

end Build

end ContractModel
