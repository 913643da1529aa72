import ContractModel.Proofs.Syntax.Inheritance
import Mathlib.Data.List.Nodup

/-! # What references find

A reference finds a node with its identifier in the source that has one, and it fails only where no
source of the compilation has such a node.
-/

namespace ContractModel

variable {ts : Trees} {root file : String} {id : Int} {n : Node} {e : Error}

theorem FlatTree.contains_iff_exists {t : FlatTree} :
    t.contains id = true ↔ ∃ n, t.get? id = some n := by
  rw [← Option.isSome_iff_exists, FlatTree.contains, FlatTree.get?, List.find?_isSome,
    List.any_eq_true]

theorem FlatTree.mem_of_get? {t : FlatTree} (h : t.get? id = some n) : n ∈ t.nodes ∧ n.id = id :=
  ⟨List.mem_of_find?_eq_some h, by simpa using List.find?_some h⟩

theorem FlatTree.get?_of_mem {t : FlatTree} (h : n ∈ t.nodes) : t.get? n.id = some n := by
  cases hfound : t.get? n.id with
  | none => simpa using List.find?_eq_none.1 hfound n h
  | some m =>
    obtain ⟨hm, hid⟩ := mem_of_get? hfound
    rw [List.inj_on_of_nodup_map t.nodup hm h hid]

namespace Trees

/-- The nodes of all sources of a compilation. -/
def allNodes (ts : Trees) (root : String) : List Node :=
  (ts.unitsOf root).entries.flatMap fun e => e.2.nodes

theorem length_allNodes (ts : Trees) (root : String) :
    (ts.allNodes root).length = ts.nodeCount root :=
  SortedMap.length_flatMap_entries _ _

theorem mem_allNodes_iff : n ∈ ts.allNodes root ↔ ∃ file, n ∈ ts.nodesOf root file := by
  simp only [allNodes, List.mem_flatMap, Prod.exists, Inheritance.mem_nodesOf_iff]

theorem holder?_eq_none_iff :
    ts.holder? root id = none ↔ ∀ file, ∀ n ∈ ts.nodesOf root file, n.id ≠ id := by
  simp only [holder?, List.find?_eq_none, FlatTree.contains, List.any_eq_true, decide_eq_true_eq,
    Inheritance.mem_nodesOf_iff]
  constructor
  · rintro h file n ⟨t, ht, hn⟩ hid
    exact h (file, t) ht ⟨n, hn, hid⟩
  · rintro h ⟨file, t⟩ ht ⟨n, hn, hid⟩
    exact h file n ⟨t, ht, hn⟩ hid

theorem definition_of_holder? {t : FlatTree} (h : ts.holder? root id = some (file, t)) :
    ∃ n, ts.definition root id = .ok n ∧ n.id = id ∧ n ∈ ts.nodesOf root file := by
  have hcontains : t.contains id = true :=
    List.find?_some (p := fun e : String × FlatTree => e.2.contains id) h
  obtain ⟨n, hn⟩ := FlatTree.contains_iff_exists.1 hcontains
  obtain ⟨hmem, hid⟩ := FlatTree.mem_of_get? hn
  refine ⟨n, ?_, hid, Inheritance.mem_nodesOf_iff.2 ⟨t, List.mem_of_find?_eq_some h, hmem⟩⟩
  rw [definition, node?, h, Option.bind_some, hn]

/-- A reference finds a node with its identifier, in the source that it finds. -/
theorem definition_eq_ok (h : ts.definition root id = .ok n) :
    n.id = id ∧ ∃ file, ts.fileOf root id = .ok file ∧ n ∈ ts.nodesOf root file := by
  cases hholder : ts.holder? root id with
  | none =>
    rw [definition, node?, hholder] at h
    cases h
  | some found =>
    obtain ⟨n', hn', hid, hmem⟩ := definition_of_holder? hholder
    rw [h] at hn'
    cases hn'
    exact ⟨hid, found.1, by rw [fileOf, hholder], hmem⟩

theorem definition_eq_ok_iff : ts.definition root id = .ok n ↔ ts.node? root id = some n := by
  unfold definition
  split
  · next m hm => rw [hm, Except.ok.injEq, Option.some.injEq]
  · next hnone =>
    rw [hnone]
    constructor
    · rintro ⟨⟩
    · rintro ⟨⟩

theorem mem_allNodes_of_definition (h : ts.definition root id = .ok n) : n ∈ ts.allNodes root := by
  obtain ⟨-, file, -, hmem⟩ := definition_eq_ok h
  exact mem_allNodes_iff.2 ⟨file, hmem⟩

/-- Without a node that has its identifier a reference is dangling. -/
theorem definition_eq_error (h : ts.definition root id = .error e) :
    e = .danglingReference id root ∧ ∀ file, ∀ n ∈ ts.nodesOf root file, n.id ≠ id := by
  cases hholder : ts.holder? root id with
  | none =>
    rw [definition, node?, hholder] at h
    cases h
    exact ⟨rfl, holder?_eq_none_iff.1 hholder⟩
  | some found =>
    obtain ⟨n, hn, -⟩ := definition_of_holder? hholder
    rw [h] at hn
    cases hn

theorem fileOf_eq_error (h : ts.fileOf root id = .error e) :
    e = .danglingReference id root ∧ ∀ file, ∀ n ∈ ts.nodesOf root file, n.id ≠ id := by
  unfold fileOf at h
  split at h
  · cases h
  · next hholder =>
    cases h
    exact ⟨rfl, holder?_eq_none_iff.1 hholder⟩

end Trees

end ContractModel
