import ContractModel.Syntax.FlatTree
import Mathlib.Data.List.Nodup
import Mathlib.Data.List.Shortlex

/-! # The nodes of a flattened tree

A tree has an object wherever a path leads to one, from an object with an identifier to a field of
it or to an item of such a field. These are the objects that become nodes, and where no two of them
share an identifier, their nodes stand in the order of their paths: the shorter one first, and of
paths with one length the one that turns off earlier.
-/

namespace ContractModel

open List (Shortlex)

theorem Node.string?_eq (n : Node) (key : String) :
    n.string? key = (n.fields.lookup key).bind Json.asString? := by
  unfold Node.string? Node.get?
  cases n.fields.lookup key with
  | none => rfl
  | some j => cases j <;> rfl

namespace FlatTree

section Insert

variable {t : FlatTree} {n : Node} {ns : List Node} {id : Int}

theorem mem_insertNode_id_iff :
    id ∈ (insertNode n ns).map Node.id ↔ id = n.id ∨ id ∈ ns.map Node.id := by
  induction ns with
  | nil => simp [insertNode]
  | cons m ns ih => grind [insertNode]

theorem insertNode_of_notMem (h : n.id ∉ ns.map Node.id) : insertNode n ns = ns ++ [n] := by
  induction ns with
  | nil => rfl
  | cons m ns ih =>
    rw [List.map_cons, List.mem_cons, not_or] at h
    rw [insertNode, if_neg (Ne.symm h.1), ih h.2, List.cons_append]

theorem contains_iff : t.contains id ↔ id ∈ t.nodes.map Node.id := by
  simp [contains]

theorem contains_foldl_insert : (ns.foldl insert t).contains id ↔
    t.contains id ∨ id ∈ ns.map Node.id := by
  induction ns generalizing t with
  | nil => simp
  | cons n ns ih =>
    rw [List.foldl_cons, ih, contains_iff, insert, mem_insertNode_id_iff, ← contains_iff,
      List.map_cons, List.mem_cons]
    tauto

/-- Nodes with new identifiers, all distinct, are added at the end. -/
theorem nodes_foldl_insert (h : ((t.nodes ++ ns).map Node.id).Nodup) :
    (ns.foldl insert t).nodes = t.nodes ++ ns := by
  induction ns generalizing t with
  | nil => simp
  | cons n ns ih =>
    have hnew : n.id ∉ t.nodes.map Node.id := by
      rw [List.map_append, List.map_cons] at h
      exact fun hmem => (List.nodup_append.1 h).2.2 _ hmem _ List.mem_cons_self rfl
    have hinsert : (t.insert n).nodes = t.nodes ++ [n] := insertNode_of_notMem hnew
    rw [List.foldl_cons, ih, hinsert, List.append_assoc, List.singleton_append]
    rwa [hinsert, List.append_assoc, List.singleton_append]

end Insert

/-- The identifier of an object, if it has one. -/
def idOf? (lang : Language) (ms : Json.Members) : Option Int :=
  (ms.lookup lang.nodeIdKey).bind Json.asId?

/-- The kind of an object, empty if it has none. -/
def kindOf (lang : Language) (ms : Json.Members) : String :=
  ((ms.lookup lang.nodeKindKey).bind Json.asString?).getD ""

/-- The field holds the external references of inline assembly. -/
def IsExternal (lang : Language) (ms : Json.Members) (key : String) : Prop :=
  kindOf lang ms = "InlineAssembly" ∧ key = "externalReferences"

instance (lang : Language) (ms : Json.Members) (key : String) :
    Decidable (IsExternal lang ms key) :=
  inferInstanceAs (Decidable (_ ∧ _))

theorem ofJson_object (lang : Language) (contract : Option String) (ms : Json.Members) :
    Node.ofJson lang contract (.object ms) =
      (idOf? lang ms).map fun id => ⟨id, kindOf lang ms, contract, lang, ms⟩ := by
  unfold Node.ofJson idOf? kindOf
  simp only [Json.asObject?, Option.bind_eq_bind, Option.bind_some]
  cases ms.lookup lang.nodeIdKey with
  | none => rfl
  | some j =>
    simp only [Option.bind_some]
    cases j.asId? <;> rfl

/-- An object at its place in a tree. A step of the path is the position of a field, and that of the
item if the field is an array. -/
structure Occurrence where
  path : List (Nat × Nat)
  /-- The fields of the objects that the path passes, the nearest first. -/
  above : List Json.Members
  id : Int
  fields : Json.Members

namespace Occurrence

/-- The name of the nearest object above that defines a contract. -/
def contract? (lang : Language) (o : Occurrence) : Option String :=
  (o.above.find? fun ms => kindOf lang ms = lang.contractKind).bind fun ms =>
    (ms.lookup "name").bind Json.asString?

/-- The node that the object becomes. -/
def node (lang : Language) (o : Occurrence) : Node :=
  ⟨o.id, kindOf lang o.fields, o.contract? lang, lang, o.fields⟩

/-- One step leads from an object to another: into a field, or to an item of a field that is an
array. External references of inline assembly are not entered. -/
inductive Above (lang : Language) (o : Occurrence) : Occurrence → Prop
  | field {i : Nat} {key : String} {ms : Json.Members} {id : Int} :
      o.fields[i]? = some (key, .object ms) → ¬ IsExternal lang o.fields key →
      idOf? lang ms = some id → Above lang o ⟨o.path ++ [(i, 0)], o.fields :: o.above, id, ms⟩
  | item {i j : Nat} {key : String} {js : List Json} {ms : Json.Members} {id : Int} :
      o.fields[i]? = some (key, .array js) → ¬ IsExternal lang o.fields key →
      js[j]? = some (.object ms) → idOf? lang ms = some id →
      Above lang o ⟨o.path ++ [(i, j)], o.fields :: o.above, id, ms⟩

/-- The objects that can be reached from the root of a tree through objects with identifiers. -/
inductive Reached (lang : Language) (tree : Json) : Occurrence → Prop
  | root {ms : Json.Members} {id : Int} :
      tree = .object ms → idOf? lang ms = some id → Reached lang tree ⟨[], [], id, ms⟩
  | step {o o' : Occurrence} : Reached lang tree o → Above lang o o' → Reached lang tree o'

/-- Breadth-first order: of two objects the one with the shorter path comes first, and of two with
equally long paths the one whose path turns off to an earlier field or item. -/
def Precedes (o o' : Occurrence) : Prop :=
  Shortlex (Prod.Lex (· < ·) (· < ·)) o.path o'.path

variable {lang : Language} {tree : Json} {o o' : Occurrence}

section Children

/-- The object that a value is, behind a step. -/
def child? (lang : Language) (o : Occurrence) (step : Nat × Nat) : Json → Option Occurrence
  | .object ms => (idOf? lang ms).map fun id => ⟨o.path ++ [step], o.fields :: o.above, id, ms⟩
  | _ => none

/-- The objects in a field, given with its position. -/
def childrenIn (lang : Language) (o : Occurrence) (f : (String × Json) × Nat) : List Occurrence :=
  if IsExternal lang o.fields f.1.1 then []
  else (fieldValues f.1.2).zipIdx.filterMap fun v => o.child? lang (f.2, v.2) v.1

/-- The objects one step below an object, in order. -/
def children (lang : Language) (o : Occurrence) : List Occurrence :=
  o.fields.zipIdx.flatMap (o.childrenIn lang)

theorem child?_eq_some_iff {step : Nat × Nat} {j : Json} : o.child? lang step j = some o' ↔
    ∃ ms id, j = .object ms ∧ idOf? lang ms = some id ∧
      ⟨o.path ++ [step], o.fields :: o.above, id, ms⟩ = o' := by
  cases j <;> simp [child?]

theorem mem_childrenIn_iff {f : (String × Json) × Nat} : o' ∈ o.childrenIn lang f ↔
    ¬ IsExternal lang o.fields f.1.1 ∧ ∃ p ms id, (fieldValues f.1.2)[p]? = some (.object ms) ∧
      idOf? lang ms = some id ∧ ⟨o.path ++ [(f.2, p)], o.fields :: o.above, id, ms⟩ = o' := by
  unfold childrenIn
  split
  · next hexternal =>
    constructor
    · rintro ⟨⟩
    · exact fun h => absurd hexternal h.1
  · next hexternal =>
    rw [List.mem_filterMap, and_iff_right hexternal]
    constructor
    · rintro ⟨⟨j, p⟩, hvalue, hchild⟩
      obtain ⟨ms, id, rfl, hid, rfl⟩ := child?_eq_some_iff.1 hchild
      exact ⟨p, ms, id, List.mem_zipIdx_iff_getElem?.1 hvalue, hid, rfl⟩
    · rintro ⟨p, ms, id, hvalue, hid, rfl⟩
      exact ⟨(.object ms, p), List.mem_zipIdx_iff_getElem?.2 hvalue,
        child?_eq_some_iff.2 ⟨ms, id, rfl, hid, rfl⟩⟩

theorem mem_children_iff : o' ∈ o.children lang ↔ Above lang o o' := by
  simp only [children, List.mem_flatMap, List.mem_zipIdx_iff_getElem?, mem_childrenIn_iff]
  constructor
  · rintro ⟨⟨⟨key, value⟩, i⟩, hfield, hexternal, p, ms, id, hvalue, hid, rfl⟩
    cases value with
    | array js => exact .item hfield hexternal hvalue hid
    | object ns =>
      obtain ⟨rfl, rfl⟩ : p = 0 ∧ ns = ms := by
        simpa [fieldValues, List.getElem?_singleton] using hvalue
      exact .field hfield hexternal hid
    | _ => cases hvalue
  · intro h
    cases h with
    | @field i key ms id hfield hexternal hid =>
      exact ⟨((key, .object ms), i), hfield, hexternal, 0, ms, id, rfl, hid, rfl⟩
    | @item i j key js ms id hfield hexternal hitem hid =>
      exact ⟨((key, .array js), i), hfield, hexternal, j, ms, id, hitem, hid, rfl⟩

/-- What an object becomes passes its contract on to the objects below. -/
theorem contractForChildren_node (o' : Occurrence) (h : o'.above = o.fields :: o.above) :
    (o.node lang).contractForChildren = o'.contract? lang := by
  unfold Node.contractForChildren Node.isContractDefinition Node.is contract?
  rw [h, List.find?_cons]
  by_cases hkind : kindOf lang o.fields = lang.contractKind
  · simp [node, hkind, Node.name?, Node.string?_eq]
  · simp [node, hkind, contract?]

theorem ofJson_child (step : Nat × Nat) (j : Json) :
    Node.ofJson lang (o.node lang).contractForChildren j =
      (o.child? lang step j).map (node lang) := by
  cases j with
  | object ms =>
    rw [ofJson_object, child?, Option.map_map]
    refine Option.map_congr fun id _ => ?_
    rw [contractForChildren_node ⟨o.path ++ [step], o.fields :: o.above, id, ms⟩ rfl]
    rfl
  | _ => rfl

/-- The nodes that an object's node puts into the queue are those of the objects below. -/
theorem map_node_children : (o.children lang).map (node lang) =
    (below (o.node lang)).filterMap fun c => Node.ofJson lang c.2 c.1 := by
  have hfields : (o.node lang).fields = o.fields.zipIdx.map Prod.fst :=
    (List.zipIdx_map_fst 0 _).symm
  rw [children, below, hfields, List.map_flatMap, List.filterMap_flatMap, List.flatMap_map]
  congr 1
  funext f
  rw [childrenIn]
  have hexternal : ((o.node lang).is "InlineAssembly" && f.1.1 == "externalReferences") = true ↔
      IsExternal lang o.fields f.1.1 := by
    simp [Node.is, node, IsExternal]
  by_cases h : IsExternal lang o.fields f.1.1
  · rw [if_pos h, if_pos (hexternal.2 h)]
    rfl
  · have hvalues := List.zipIdx_map_fst 0 (fieldValues f.1.2)
    rw [if_neg h, if_neg (mt hexternal.1 h), List.map_filterMap, List.filterMap_map]
    conv => rhs; rw [← hvalues, List.filterMap_map]
    exact List.filterMap_congr fun v _ => (ofJson_child (f.2, v.2) v.1).symm

end Children

section Levels

/-- The object at the root of a tree. -/
def roots (lang : Language) : Json → List Occurrence
  | .object ms => ((idOf? lang ms).map fun id => ⟨[], [], id, ms⟩).toList
  | _ => []

/-- The objects that paths of one length lead to. -/
def level (lang : Language) (tree : Json) (length : Nat) : List Occurrence :=
  (fun os => os.flatMap (children lang))^[length] (roots lang tree)

/-- The objects of a tree in breadth-first order. -/
def all (lang : Language) (tree : Json) : List Occurrence :=
  (List.range tree.depth).flatMap (level lang tree)

variable {k : Nat}

theorem mem_roots_iff : o ∈ roots lang tree ↔
    ∃ ms id, tree = .object ms ∧ idOf? lang ms = some id ∧ ⟨[], [], id, ms⟩ = o := by
  cases tree <;> simp [roots]

theorem level_succ (k : Nat) :
    level lang tree (k + 1) = (level lang tree k).flatMap (children lang) :=
  Function.iterate_succ_apply' _ _ _

theorem length_path_of_above (h : Above lang o o') : o'.path.length = o.path.length + 1 := by
  cases h <;> simp

theorem mem_level_iff : o ∈ level lang tree k ↔ Reached lang tree o ∧ o.path.length = k := by
  induction k generalizing o with
  | zero =>
    constructor
    · intro h
      obtain ⟨ms, id, htree, hid, rfl⟩ := mem_roots_iff.1 h
      exact ⟨.root htree hid, rfl⟩
    · rintro ⟨h, hlength⟩
      cases h with
      | root htree hid => exact mem_roots_iff.2 ⟨_, _, htree, hid, rfl⟩
      | step _ habove =>
        rw [length_path_of_above habove] at hlength
        cases hlength
  | succ k ih =>
    rw [level_succ, List.mem_flatMap]
    constructor
    · rintro ⟨o', ho', h⟩
      obtain ⟨hreached, rfl⟩ := ih.1 ho'
      have habove := mem_children_iff.1 h
      exact ⟨.step hreached habove, length_path_of_above habove⟩
    · rintro ⟨h, hlength⟩
      cases h with
      | root => cases hlength
      | @step o' _ hreached habove =>
        rw [length_path_of_above habove] at hlength
        exact ⟨o', ih.2 ⟨hreached, Nat.succ.inj hlength⟩, mem_children_iff.2 habove⟩

end Levels

section Depth

theorem depth_le_depthItems {j : Json} {js : List Json} (h : j ∈ js) :
    j.depth ≤ Json.depthItems js := by
  induction js with
  | nil => cases h
  | cons j' js ih =>
    rw [Json.depthItems]
    rcases List.mem_cons.1 h with rfl | h
    · exact Nat.le_max_left _ _
    · exact (ih h).trans (Nat.le_max_right _ _)

theorem depth_le_depthMembers {key : String} {j : Json} {ms : Json.Members} (h : (key, j) ∈ ms) :
    j.depth ≤ Json.depthMembers ms := by
  induction ms with
  | nil => cases h
  | cons m ms ih =>
    rw [Json.depthMembers]
    rcases List.mem_cons.1 h with rfl | h
    · exact Nat.le_max_left _ _
    · exact (ih h).trans (Nat.le_max_right _ _)

theorem depth_lt_of_above (h : Above lang o o') :
    Json.depthMembers o'.fields < Json.depthMembers o.fields := by
  cases h with
  | field hfield =>
    have hle := depth_le_depthMembers (List.mem_of_getElem? hfield)
    rwa [Json.depth] at hle
  | item hfield _ hitem =>
    have hle := depth_le_depthMembers (List.mem_of_getElem? hfield)
    have hle' := depth_le_depthItems (List.mem_of_getElem? hitem)
    simp only [Json.depth] at hle hle'
    dsimp only
    omega

/-- A path is shorter than the tree is deep. -/
theorem length_path_lt (h : Reached lang tree o) :
    o.path.length + Json.depthMembers o.fields < tree.depth := by
  induction h with
  | root htree hid =>
    rw [htree, Json.depth]
    simp
  | step _ habove ih =>
    have hdepth := depth_lt_of_above habove
    rw [length_path_of_above habove]
    omega

theorem mem_all_iff : o ∈ all lang tree ↔ Reached lang tree o := by
  simp only [all, List.mem_flatMap, List.mem_range, mem_level_iff]
  constructor
  · rintro ⟨k, -, h, -⟩
    exact h
  · intro h
    exact ⟨o.path.length, by have := length_path_lt h; omega, h, rfl⟩

end Depth

section Order

theorem lex_append {α : Type} {r : α → α → Prop} {as bs : List α} (h : List.Lex r as bs)
    (hlength : as.length = bs.length) (as' bs' : List α) :
    List.Lex r (as ++ as') (bs ++ bs') := by
  induction h with
  | nil => cases hlength
  | cons h ih => exact .cons (ih (Nat.succ.inj hlength))
  | rel h => exact .rel h

theorem pairwise_zipIdx {α : Type} (as : List α) :
    as.zipIdx.Pairwise fun a b => a.2 < b.2 := by
  rw [← List.pairwise_map (f := Prod.snd) (R := (· < ·)), List.zipIdx_map_snd]
  exact List.pairwise_lt_range'

theorem precedes_of_step {above above' : List Json.Members} {id id' : Int}
    {ms ms' : Json.Members} {path : List (Nat × Nat)} {step step' : Nat × Nat}
    (h : Prod.Lex (· < ·) (· < ·) step step') :
    Precedes ⟨path ++ [step], above, id, ms⟩ ⟨path ++ [step'], above', id', ms'⟩ :=
  Shortlex.of_lex (by simp) (List.Lex.append_left _ (.rel h) path)

/-- The objects below one object stand in the order of its fields. -/
theorem pairwise_children (lang : Language) (o : Occurrence) :
    (o.children lang).Pairwise Precedes := by
  refine List.pairwise_flatMap.2 ⟨fun f _ => ?_, ?_⟩
  · unfold childrenIn
    split
    · exact .nil
    · refine List.pairwise_filterMap.2 ((pairwise_zipIdx _).imp fun hlt o₁ h₁ o₂ h₂ => ?_)
      obtain ⟨_, _, -, -, rfl⟩ := child?_eq_some_iff.1 h₁
      obtain ⟨_, _, -, -, rfl⟩ := child?_eq_some_iff.1 h₂
      exact precedes_of_step (.right _ hlt)
  · refine (pairwise_zipIdx _).imp fun hlt o₁ h₁ o₂ h₂ => ?_
    obtain ⟨-, _, _, _, -, -, rfl⟩ := mem_childrenIn_iff.1 h₁
    obtain ⟨-, _, _, _, -, -, rfl⟩ := mem_childrenIn_iff.1 h₂
    exact precedes_of_step (.left _ _ hlt)

theorem exists_path_of_above (h : Above lang o o') : ∃ step, o'.path = o.path ++ [step] := by
  cases h <;> exact ⟨_, rfl⟩

/-- Along a level the parents stand in order, and the paths of their children begin with theirs. -/
theorem pairwise_level (k : Nat) : (level lang tree k).Pairwise Precedes := by
  induction k with
  | zero =>
    change (roots lang tree).Pairwise Precedes
    unfold roots
    split
    · exact Option.pairwise_toList
    · exact .nil
  | succ k ih =>
    rw [level_succ]
    refine List.pairwise_flatMap.2 ⟨fun o _ => pairwise_children lang o, ?_⟩
    refine ih.imp_of_mem fun {o o'} ho ho' hlt o₁ h₁ o₂ h₂ => ?_
    obtain ⟨step, hstep⟩ := exists_path_of_above (mem_children_iff.1 h₁)
    obtain ⟨step', hstep'⟩ := exists_path_of_above (mem_children_iff.1 h₂)
    have hlength : o.path.length = o'.path.length :=
      (mem_level_iff.1 ho).2.trans (mem_level_iff.1 ho').2.symm
    unfold Precedes at *
    rw [List.shortlex_iff_lex hlength] at hlt
    rw [hstep, hstep']
    exact Shortlex.of_lex (by simp [hlength]) (lex_append hlt hlength _ _)

theorem pairwise_all (lang : Language) (tree : Json) : (all lang tree).Pairwise Precedes := by
  refine List.pairwise_flatMap.2 ⟨fun k _ => pairwise_level k, ?_⟩
  refine List.pairwise_lt_range.imp fun {k k'} hlt o ho o' ho' => ?_
  refine Shortlex.of_length_lt ?_
  rwa [(mem_level_iff.1 ho).2, (mem_level_iff.1 ho').2]

end Order

end Occurrence

open Occurrence

variable {lang : Language} {tree : Json}

/-- What the levels of candidates become are the levels of the objects that they hold. -/
theorem levels_eq (depth : Nat) (os : List Occurrence) {cs : List Candidate}
    (h : (cs.filterMap fun c => Node.ofJson lang c.2 c.1) = os.map (node lang)) :
    levels lang depth cs = ((List.range depth).flatMap fun k =>
      (fun os => os.flatMap (children lang))^[k] os).map (node lang) := by
  induction depth generalizing cs os with
  | zero => rfl
  | succ depth ih =>
    have hbelow : (((os.map (node lang)).flatMap below).filterMap fun c =>
        Node.ofJson lang c.2 c.1) = (os.flatMap (children lang)).map (node lang) := by
      rw [List.filterMap_flatMap, List.flatMap_map, List.map_flatMap]
      exact congrArg (os.flatMap ·) (funext fun o => map_node_children.symm)
    rw [levels, h, ih _ hbelow, List.range_succ_eq_map, List.flatMap_cons, List.map_append,
      List.flatMap_map]
    rfl

theorem ofJson_eq (lang : Language) (tree : Json) :
    ofJson lang tree = ((all lang tree).map (node lang)).foldl insert ∅ := by
  rw [ofJson, levels_eq tree.depth (roots lang tree)]
  · rfl
  · cases tree with
    | object ms =>
      rw [List.filterMap_cons, ofJson_object, roots]
      cases idOf? lang ms <;> rfl
    | _ => rfl

/-- No two objects that can be reached share an identifier. -/
def DistinctIds (lang : Language) (tree : Json) : Prop :=
  ∀ o o', Reached lang tree o → Reached lang tree o' → o.id = o'.id → o.path = o'.path

theorem nodup_id_iff_distinctIds :
    ((all lang tree).map Occurrence.id).Nodup ↔ DistinctIds lang tree := by
  constructor
  · intro h o o' ho ho' hid
    rw [List.inj_on_of_nodup_map h (mem_all_iff.2 ho) (mem_all_iff.2 ho') hid]
  · intro h
    refine List.pairwise_map.2 ((pairwise_all lang tree).imp_of_mem fun {o o'} ho ho' hlt hid => ?_)
    rw [Precedes, h o o' (mem_all_iff.1 ho) (mem_all_iff.1 ho') hid] at hlt
    exact irrefl _ hlt

/-- The flattened tree has the identifiers of the objects that can be reached. Where these are
distinct, it has one node for each of the objects, with its fields and the contract around it, in
breadth-first order. -/
theorem ofJson_flattens (lang : Language) (tree : Json) :
    (∀ id, (ofJson lang tree).contains id ↔ ∃ o, Reached lang tree o ∧ o.id = id) ∧
    (DistinctIds lang tree → ∃ os : List Occurrence, (∀ o, o ∈ os ↔ Reached lang tree o) ∧
      os.Pairwise Precedes ∧ (ofJson lang tree).nodes = os.map (node lang)) := by
  have hids : ((all lang tree).map (node lang)).map Node.id =
      (all lang tree).map Occurrence.id := List.map_map
  constructor
  · intro id
    have hempty : ¬ (∅ : FlatTree).contains id := Bool.false_ne_true
    rw [ofJson_eq, contains_foldl_insert, or_iff_right hempty, hids, List.mem_map]
    simp only [mem_all_iff]
  · intro hdistinct
    refine ⟨all lang tree, fun o => mem_all_iff, pairwise_all lang tree, ?_⟩
    rw [ofJson_eq, nodes_foldl_insert]
    · rfl
    · change (((all lang tree).map (node lang)).map Node.id).Nodup
      rw [hids]
      exact nodup_id_iff_distinctIds.2 hdistinct

section Assembly

/-! A contract with a function in inline assembly, an object without an identifier and a constant
outside. -/

def assemblyTree : Json :=
  .object [("id", .ofNat 1), ("nodeType", "SourceUnit"), ("nodes", .array [
    .object [("id", .ofNat 2), ("nodeType", "ContractDefinition"), ("name", "Vault"),
      ("nodes", .array [.object [("id", .ofNat 4), ("nodeType", "FunctionDefinition"),
        ("body", .object [("id", .ofNat 5), ("nodeType", "InlineAssembly"),
          ("externalReferences", .array [.object [("id", .ofNat 6)]]),
          ("AST", .object [("id", "7"), ("nodeType", "YulBlock")])])]]),
      ("documentation", .object [("text", .object [("id", .ofNat 8)])])],
    .object [("id", .ofNat 3), ("nodeType", "VariableDeclaration")]])]

theorem ofJson_flattens_assembly : DistinctIds .solidity assemblyTree ∧
    (∃ os : List Occurrence, (∀ o, o ∈ os ↔ Reached .solidity assemblyTree o) ∧
      os.Pairwise Precedes ∧
      (ofJson .solidity assemblyTree).nodes = os.map (node .solidity)) ∧
    ((ofJson .solidity assemblyTree).nodes.map fun n => (n.id, n.contract)) =
      [(1, none), (2, none), (3, none), (4, some "Vault"), (5, some "Vault"), (7, some "Vault")] := by
  have hdistinct : DistinctIds .solidity assemblyTree :=
    nodup_id_iff_distinctIds.1 (by decide +kernel)
  exact ⟨hdistinct, (ofJson_flattens .solidity assemblyTree).2 hdistinct, by decide +kernel⟩

end Assembly

end FlatTree

end ContractModel
