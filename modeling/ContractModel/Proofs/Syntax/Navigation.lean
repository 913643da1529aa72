import ContractModel.Proofs.Syntax.Flattening
import ContractModel.Proofs.Syntax.References
import Mathlib.Logic.Relation

/-! # Navigating a tree

From a node one can go on to the nodes in its fields, which are read from its object anew. Where
identifiers are distinct, these are the nodes that the flattened tree has under their identifiers,
stamps included, wherever navigation leads. Only the external references of inline assembly are
nodes that the flattened tree does not have.
-/

namespace ContractModel

namespace Node

variable {n c : Node} {key : String}

theorem mem_fields_of_get? {value : Json} (h : n.get? key = some value) :
    (key, value) ∈ n.fields := by
  obtain ⟨front, rest, hfields, -⟩ := List.lookup_eq_some_iff.1 (get?_eq_some h)
  rw [hfields]
  exact List.mem_append_right front List.mem_cons_self

theorem exists_value_of_child? (h : n.child? key = some c) : ∃ value j,
    (key, value) ∈ n.fields ∧ j ∈ FlatTree.fieldValues value ∧
      ofJson n.lang n.contractForChildren j = some c := by
  obtain ⟨value, hvalue, hc⟩ := Option.bind_eq_some_iff.1 h
  obtain rfl := fields_of_ofJson hc
  exact ⟨.object c.fields, .object c.fields, mem_fields_of_get? hvalue, List.mem_singleton_self _,
    hc⟩

theorem exists_value_of_mem_children (h : c ∈ n.children key) : ∃ value j,
    (key, value) ∈ n.fields ∧ j ∈ FlatTree.fieldValues value ∧
      ofJson n.lang n.contractForChildren j = some c := by
  obtain ⟨j, hj, hc⟩ := List.mem_filterMap.1 h
  unfold items at hj
  cases hvalue : n.get? key with
  | none => simp [hvalue] at hj
  | some value =>
    cases value with
    | array js =>
      rw [hvalue] at hj
      exact ⟨.array js, j, mem_fields_of_get? hvalue, hj, hc⟩
    | _ => simp [hvalue, Json.asArray?] at hj

/-- The field holds the external references of inline assembly. -/
def IsExternal (n : Node) (key : String) : Prop :=
  n.kind = "InlineAssembly" ∧ key = "externalReferences"

/-- One step of navigation: to the node in a field, or to one among the items of a field. -/
inductive Enters (n : Node) : Node → Prop
  | child {key : String} {c : Node} : ¬ n.IsExternal key → n.child? key = some c → Enters n c
  | item {key : String} {c : Node} : ¬ n.IsExternal key → c ∈ n.children key → Enters n c

end Node

namespace FlatTree

open Occurrence Node

variable {lang : Language} {tree : Json} {n c : Node} {key : String}

/-- With distinct identifiers no node takes the place of another. -/
theorem nodes_ofJson (h : DistinctIds lang tree) :
    (ofJson lang tree).nodes = (all lang tree).map (node lang) := by
  rw [ofJson_eq, nodes_foldl_insert]
  · rfl
  · change (((all lang tree).map (node lang)).map Node.id).Nodup
    rw [List.map_map]
    exact nodup_id_iff_distinctIds.2 h

theorem mem_below {value j : Json} (hkey : ¬ n.IsExternal key) (hvalue : (key, value) ∈ n.fields)
    (hj : j ∈ fieldValues value) : (j, n.contractForChildren) ∈ below n := by
  refine List.mem_flatMap.2 ⟨(key, value), hvalue, ?_⟩
  rw [if_neg (by simpa [Node.is, Node.IsExternal] using hkey)]
  exact List.mem_map_of_mem hj

/-- The queue of the flattening takes in each node that a field holds. -/
theorem mem_nodes_of_value (h : DistinctIds lang tree) (hn : n ∈ (ofJson lang tree).nodes)
    (hkey : ¬ n.IsExternal key) {value j : Json} (hvalue : (key, value) ∈ n.fields)
    (hj : j ∈ fieldValues value) (hc : Node.ofJson n.lang n.contractForChildren j = some c) :
    c ∈ (ofJson lang tree).nodes := by
  rw [nodes_ofJson h] at hn ⊢
  obtain ⟨o, ho, rfl⟩ := List.mem_map.1 hn
  have hbelow : c ∈ (o.children lang).map (node lang) := by
    rw [map_node_children]
    exact List.mem_filterMap.2 ⟨_, mem_below hkey hvalue hj, hc⟩
  obtain ⟨o', ho', rfl⟩ := List.mem_map.1 hbelow
  exact List.mem_map_of_mem (mem_all_iff.2 ((mem_all_iff.1 ho).step (mem_children_iff.1 ho')))

theorem mem_nodes_of_enters (h : DistinctIds lang tree) (hn : n ∈ (ofJson lang tree).nodes)
    (hc : n.Enters c) : c ∈ (ofJson lang tree).nodes := by
  cases hc with
  | child hkey hc =>
    obtain ⟨value, j, hvalue, hj, hc⟩ := exists_value_of_child? hc
    exact mem_nodes_of_value h hn hkey hvalue hj hc
  | item hkey hc =>
    obtain ⟨value, j, hvalue, hj, hc⟩ := exists_value_of_mem_children hc
    exact mem_nodes_of_value h hn hkey hvalue hj hc

/-- However far navigation goes, it stays among the nodes of the flattened tree. -/
theorem get?_of_navigation (h : DistinctIds lang tree) (hn : n ∈ (ofJson lang tree).nodes)
    (hc : Relation.ReflTransGen Enters n c) : (ofJson lang tree).get? c.id = some c := by
  refine get?_of_mem ?_
  induction hc with
  | refl => exact hn
  | tail _ hlast ih => exact mem_nodes_of_enters h ih hlast

/-- The nodes in the fields of a node are those of the flattened tree. -/
theorem navigation_agrees (h : DistinctIds lang tree) (hn : n ∈ (ofJson lang tree).nodes)
    (hkey : ¬ n.IsExternal key) :
    (∀ c, n.child? key = some c → (ofJson lang tree).get? c.id = some c) ∧
      ∀ c ∈ n.children key, (ofJson lang tree).get? c.id = some c :=
  ⟨fun _ hc => get?_of_navigation h hn (.single (.child hkey hc)),
    fun _ hc => get?_of_navigation h hn (.single (.item hkey hc))⟩

/-- The function in a contract and the assembly in the function, with the stamps of both. -/
theorem navigation_agrees_assembly : DistinctIds .solidity assemblyTree ∧
    ((ofJson .solidity assemblyTree).nodes.flatMap fun n =>
      (n.children "nodes" ++ (n.child? "body").toList).map fun c => (n.id, c.id, c.contract)) =
        [(1, 2, none), (1, 3, none), (2, 4, some "Vault"), (4, 5, some "Vault")] ∧
    ∀ n ∈ (ofJson .solidity assemblyTree).nodes,
      (∀ c ∈ n.children "nodes", (ofJson .solidity assemblyTree).get? c.id = some c) ∧
        ∀ c, n.child? "body" = some c → (ofJson .solidity assemblyTree).get? c.id = some c := by
  have hdistinct : DistinctIds .solidity assemblyTree :=
    nodup_id_iff_distinctIds.1 (by decide +kernel)
  refine ⟨hdistinct, by decide +kernel, fun n hn => ?_⟩
  have hkey {key : String} (h : key ≠ "externalReferences") : ¬ n.IsExternal key :=
    fun hexternal => h hexternal.2
  exact ⟨(navigation_agrees hdistinct hn (hkey (by decide))).2,
    (navigation_agrees hdistinct hn (hkey (by decide))).1⟩

/-- The external reference of the assembly is a node that the flattened tree does not have. -/
example : (((ofJson .solidity assemblyTree).nodes.flatMap fun n =>
      (n.children "externalReferences").map Node.id) = [6]) ∧
    (ofJson .solidity assemblyTree).contains 6 = false := by decide +kernel

end FlatTree

end ContractModel
