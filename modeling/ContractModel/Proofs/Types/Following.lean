import ContractModel.Proofs.Effects
import ContractModel.Proofs.Syntax.References
import ContractModel.Types.Resolution

/-! # Following the declarations of types

Type names refer to declarations, which hold type names again. Where every reference finds a node
and value types have elementary types underneath, following the references settles: only structs
lead on, and each new one leaves fewer that can still be entered.
-/

namespace ContractModel

section References

namespace Json

mutual

/-- A value and all values inside it. -/
def inside : Json → List Json
  | .array js => .array js :: insideItems js
  | .object ms => .object ms :: insideMembers ms
  | j => [j]

def insideItems : List Json → List Json
  | [] => []
  | j :: js => inside j ++ insideItems js

def insideMembers : List (String × Json) → List Json
  | [] => []
  | (_, j) :: ms => inside j ++ insideMembers ms

end

theorem mem_inside (j : Json) : j ∈ inside j := by
  cases j <;> simp [inside]

theorem inside_subset_insideItems {j : Json} {js : List Json} (h : j ∈ js) :
    inside j ⊆ insideItems js := by
  induction js with
  | nil => cases h
  | cons k ks ih =>
    rw [insideItems]
    rcases List.mem_cons.1 h with rfl | h
    · exact List.subset_append_left _ _
    · exact List.Subset.trans (ih h) (List.subset_append_right _ _)

theorem inside_subset_insideMembers {j : Json} {ms : Members} {key : String}
    (h : ms.lookup key = some j) : inside j ⊆ insideMembers ms := by
  induction ms with
  | nil => cases h
  | cons m ms ih =>
    obtain ⟨name, k⟩ := m
    rw [List.lookup_cons] at h
    rw [insideMembers]
    split at h
    · cases h
      exact List.subset_append_left _ _
    · exact List.Subset.trans (ih h) (List.subset_append_right _ _)

end Json

namespace Node

variable {n c : Node} {key : String}

/-- The declaration that a type name refers to itself. -/
def typeReference? (n : Node) : Option Int :=
  if n.is "UserDefinedTypeName" then n.referencedDeclaration? else none

/-- The declarations that the type names in a node refer to. -/
def typeReferences (n : Node) : List Int :=
  n.typeReference?.toList ++
    (Json.insideMembers n.fields).filterMap fun j => (ofJson n.lang none j).bind typeReference?

/-- Which contract encloses a node is of no importance for the rest of it. -/
theorem ofJson_none {lang : Language} {contract : Option String} {j : Json}
    (h : ofJson lang contract j = some c) :
    ofJson lang none j = some { c with contract := none } ∧ c.lang = lang := by
  simp only [ofJson, Option.bind_eq_bind, Option.bind_eq_some_iff] at h ⊢
  obtain ⟨fields, hfields, v, hv, id, hid, hc⟩ := h
  cases hc
  exact ⟨⟨fields, hfields, v, hv, id, hid, rfl⟩, rfl⟩

theorem typeReferences_subset_of_ofJson {contract : Option String} {j : Json}
    (h : ofJson n.lang contract j = some c) (hj : Json.inside j ⊆ Json.insideMembers n.fields) :
    c.typeReferences ⊆ n.typeReferences := by
  obtain ⟨hread, hlang⟩ := ofJson_none h
  intro id hid
  refine List.mem_append_right _ (List.mem_filterMap.2 ?_)
  rcases List.mem_append.1 hid with hid | hid
  · refine ⟨j, hj (Json.mem_inside j), ?_⟩
    rw [hread, Option.bind_some]
    exact Option.mem_toList.1 hid
  · obtain ⟨k, hk, hid⟩ := List.mem_filterMap.1 hid
    rw [hlang] at hid
    refine ⟨k, hj ?_, hid⟩
    rw [fields_of_ofJson h, Json.inside]
    exact List.mem_cons_of_mem _ hk

theorem typeReferences_child_subset (h : n.child? key = some c) :
    c.typeReferences ⊆ n.typeReferences := by
  obtain ⟨j, hj, hc⟩ := Option.bind_eq_some_iff.1 h
  exact typeReferences_subset_of_ofJson hc (Json.inside_subset_insideMembers (get?_eq_some hj))

theorem typeReferences_children_subset (h : c ∈ n.children key) :
    c.typeReferences ⊆ n.typeReferences := by
  obtain ⟨j, hj, hc⟩ := List.mem_filterMap.1 h
  refine typeReferences_subset_of_ofJson hc ?_
  unfold items at hj
  cases hitems : n.get? key with
  | none =>
    rw [hitems] at hj
    cases hj
  | some v =>
    rw [hitems] at hj
    cases v with
    | array js =>
      refine List.Subset.trans ?_ (Json.inside_subset_insideMembers (get?_eq_some hitems))
      rw [Json.inside]
      exact List.Subset.trans (Json.inside_subset_insideItems hj) (List.subset_cons_self _ _)
    | _ => cases hj

end Node

namespace TypeName

/-- The declarations that are followed. -/
def references : TypeName → List Int
  | declared reference => [reference]
  | mapping _ d c _ _ => d.references ++ c.references
  | array _ e _ _ _ => e.references
  | primitive _ _ | malformed _ => []

theorem references_withTypeString {n : Node} {k : String → TypeName} {id : Int}
    (h : id ∈ (withTypeString n k).references) : ∃ s, id ∈ (k s).references := by
  unfold withTypeString at h
  split at h
  · exact ⟨_, h⟩
  · cases h

theorem references_ofNode_subset (n : Node) : (ofNode n).references ⊆ n.typeReferences := by
  fun_induction ofNode n with
  | case1 n _ | case2 n _ _ =>
    intro id h
    obtain ⟨_, ⟨⟩⟩ := references_withTypeString h
  | case3 n _ _ hkind reference href =>
    intro id h
    refine List.mem_append_left _ (Option.mem_toList.2 ?_)
    rw [Node.typeReference?, if_pos hkind, href, List.mem_singleton.1 h]
  | case7 n _ _ _ _ key hkey value hvalue ihkey ihvalue =>
    intro id h
    obtain ⟨_, h⟩ := references_withTypeString h
    rcases List.mem_append.1 h with h | h
    · exact Node.typeReferences_child_subset hkey (ihkey h)
    · exact Node.typeReferences_child_subset hvalue (ihvalue h)
  | case9 n _ _ _ _ _ element helement ih =>
    intro id h
    obtain ⟨_, h⟩ := references_withTypeString h
    exact Node.typeReferences_child_subset helement (ih h)
  | _ => exact List.nil_subset _

theorem references_ofNode_of_elementary {n : Node} (h : n.is "ElementaryTypeName") :
    (ofNode n).references = [] := by
  unfold ofNode
  rw [if_pos h, withTypeString]
  split <;> rfl

end TypeName

end References

variable {ts : Trees} {root : String} {enclosing : List Int} {n u d : Node} {id : Int}

namespace Trees

/-- Every declaration that a type name in the node refers to exists. -/
def Resolves (ts : Trees) (root : String) (n : Node) : Prop :=
  ∀ id ∈ n.typeReferences, (ts.node? root id).isSome

instance : Decidable (ts.Resolves root n) :=
  inferInstanceAs (Decidable (∀ id ∈ n.typeReferences, _))

/-- The declarations of types exist, and value types have elementary types underneath. -/
structure TypesDeclared (ts : Trees) (root : String) : Prop where
  references : ∀ n ∈ ts.allNodes root, ts.Resolves root n
  values : ∀ n ∈ ts.allNodes root, n.is "UserDefinedValueTypeDefinition" →
    ∀ u ∈ n.child? "underlyingType", u.is "ElementaryTypeName"

instance : Decidable (ts.TypesDeclared root) :=
  decidable_of_iff
    ((∀ n ∈ ts.allNodes root, ts.Resolves root n) ∧
      ∀ n ∈ ts.allNodes root, n.is "UserDefinedValueTypeDefinition" →
        ∀ u ∈ n.child? "underlyingType", u.is "ElementaryTypeName")
    ⟨fun ⟨hreferences, hvalues⟩ => ⟨hreferences, hvalues⟩,
      fun ⟨hreferences, hvalues⟩ => ⟨hreferences, hvalues⟩⟩

theorem Resolves.definition (h : ts.Resolves root n) (hid : id ∈ n.typeReferences) :
    ∃ d, ts.definition root id = .ok d ∧ d ∈ ts.allNodes root := by
  obtain ⟨d, hd⟩ := Option.isSome_iff_exists.1 (h id hid)
  have hd := definition_eq_ok_iff.2 hd
  exact ⟨d, hd, mem_allNodes_of_definition hd⟩

theorem Resolves.child {key : String} (h : ts.Resolves root n) (hu : n.child? key = some u) :
    ts.Resolves root u :=
  fun id hid => h id (Node.typeReferences_child_subset hu hid)

theorem Resolves.of_mem_children {key : String} (h : ts.Resolves root n)
    (hu : u ∈ n.children key) : ts.Resolves root u :=
  fun id hid => h id (Node.typeReferences_children_subset hu hid)

/-- How many declarations can still be entered below the enclosing ones. -/
def room (ts : Trees) (root : String) (enclosing : List Int) : Nat :=
  (((ts.allNodes root).map Node.id).filter fun id => !enclosing.contains id).length

theorem room_le : ts.room root enclosing ≤ ts.nodeCount root := by
  rw [← length_allNodes, ← List.length_map Node.id]
  exact List.length_filter_le _ _

theorem room_cons : ts.room root (id :: enclosing) =
    ((((ts.allNodes root).map Node.id).filter fun id => !enclosing.contains id).filter
      fun id' => !id' == id).length := by
  rw [room, List.filter_filter]
  simp only [List.contains_cons, Bool.not_or]

/-- A new declaration leaves fewer that can be entered. -/
theorem room_cons_lt (hn : n ∈ ts.allNodes root) (hnew : n.id ∉ enclosing) :
    ts.room root (n.id :: enclosing) < ts.room root enclosing := by
  rw [room_cons, room]
  refine List.length_filter_lt_length_iff_exists.2 ⟨n.id, ?_, by simp⟩
  exact List.mem_filter.2 ⟨List.mem_map_of_mem hn, by simpa using hnew⟩

end Trees

section Settling

variable {α β : Type} {x y : Except Error α}

/-- The tree is not as it is expected to be, which is reported. -/
def Error.IsInconsistency (e : Error) : Prop := ∃ fault, e = .inconsistency fault

/-- Both end with the same result, or with the same report of an inconsistency. -/
structure EndAlike (x y : Except Error α) : Prop where
  eq : x = y
  fault : Run.FaultIs Error.IsInconsistency x

theorem endAlike_ok (a : α) : EndAlike (.ok a) (.ok a) := ⟨rfl, Run.faultIs_ok a⟩

theorem endAlike_inconsistency (fault : Inconsistency) :
    EndAlike (.error (.inconsistency fault) : Except Error α) (.error (.inconsistency fault)) :=
  ⟨rfl, Run.faultIs_error ⟨fault, rfl⟩⟩

theorem EndAlike.bind_of_ok {f g : α → Except Error β} (h : EndAlike x y)
    (hfg : ∀ a, x = .ok a → EndAlike (f a) (g a)) : EndAlike (x >>= f) (y >>= g) := by
  obtain ⟨rfl, hfault⟩ := h
  cases x with
  | error e => exact ⟨rfl, Run.faultIs_error (hfault e rfl)⟩
  | ok a => exact hfg a rfl

theorem EndAlike.bind {f g : α → Except Error β} (h : EndAlike x y)
    (hfg : ∀ a, EndAlike (f a) (g a)) : EndAlike (x >>= f) (y >>= g) :=
  h.bind_of_ok fun a _ => hfg a

theorem EndAlike.mapM {f g : β → Except Error α} {bs : List β}
    (h : ∀ b ∈ bs, EndAlike (f b) (g b)) : EndAlike (bs.mapM f) (bs.mapM g) := by
  induction bs with
  | nil => exact endAlike_ok []
  | cons b bs ih =>
    obtain ⟨hb, hbs⟩ := List.forall_mem_cons.1 h
    rw [List.mapM_cons, List.mapM_cons]
    exact hb.bind fun a => (ih hbs).bind fun as => endAlike_ok (a :: as)

/-- From so many steps on, further steps do not change how the run ends, and it does not end for
lack of steps or of a declaration. -/
structure Settles (run : Nat → Except Error α) (bound : Nat) : Prop where
  stable : ∀ steps, bound ≤ steps → run steps = run bound
  fault : Run.FaultIs Error.IsInconsistency (run bound)

theorem settles_of_endAlike {run : Nat → Except Error α} {bound : Nat}
    (h : ∀ steps, bound ≤ steps → EndAlike (run bound) (run steps)) : Settles run bound where
  stable steps hsteps := (h steps hsteps).eq.symm
  fault := (h bound (Nat.le_refl _)).fault

theorem TypeName.endAlike_resolve {f g : Int → Except Error SourceType} {t : TypeName}
    (h : ∀ id ∈ t.references, EndAlike (f id) (g id)) : EndAlike (t.resolve f) (t.resolve g) := by
  induction t with
  | primitive name s => exact endAlike_ok _
  | declared reference => exact h reference List.mem_cons_self
  | mapping s d c contract reference ihd ihc =>
    exact (ihd fun id hid => h id (List.mem_append_left _ hid)).bind fun _ =>
      (ihc fun id hid => h id (List.mem_append_right _ hid)).bind fun _ => endAlike_ok _
  | array s e length contract reference ih => exact (ih h).bind fun _ => endAlike_ok _
  | malformed fault => exact endAlike_inconsistency fault

namespace SourceType

variable {steps steps' : Nat}

/-- Below which structs a definition asks for which type names. -/
inductive Asks (enclosing : List Int) (n : Node) : List Int → Node → Prop
  | member {m u : Node} (hkind : n.is "StructDefinition") (hnew : n.id ∉ enclosing)
    (hm : m ∈ n.children "members") (hu : m.child? "typeName" = some u) :
    Asks enclosing n (n.id :: enclosing) u
  | underlying {u : Node} (hkind : n.is "UserDefinedValueTypeDefinition")
    (hu : n.child? "underlyingType" = some u) : Asks enclosing n enclosing u

theorem endAlike_canonicalName (n : Node) : EndAlike (canonicalName n) (canonicalName n) := by
  unfold canonicalName
  split
  · exact endAlike_ok _
  · exact endAlike_inconsistency _

theorem endAlike_memberOf {f g : Node → Except Error SourceType} {m : Node}
    (h : ∀ u, m.child? "typeName" = some u → EndAlike (f u) (g u)) :
    EndAlike (memberOf f m) (memberOf g m) := by
  unfold memberOf
  split
  · exact endAlike_inconsistency _
  · next u hu => exact (h u hu).bind fun _ => endAlike_ok _

theorem endAlike_define {f g : List Int → Node → Except Error SourceType}
    (h : ∀ inner u, Asks enclosing n inner u → EndAlike (f inner u) (g inner u)) :
    EndAlike (define f enclosing n) (define g enclosing n) := by
  unfold define
  split_ifs with henum hstruct hmet hvalue hcontract
  · exact (endAlike_canonicalName n).bind fun _ => endAlike_ok _
  · exact (endAlike_canonicalName n).bind fun _ => endAlike_ok _
  · refine (endAlike_canonicalName n).bind fun _ => EndAlike.bind ?_ fun _ => endAlike_ok _
    have hnew : n.id ∉ enclosing := fun hmem => hmet (List.contains_iff_mem.2 hmem)
    exact EndAlike.mapM fun m hm => endAlike_memberOf fun u hu => h _ u (.member hstruct hnew hm hu)
  · refine (endAlike_canonicalName n).bind fun _ => ?_
    split
    · exact endAlike_inconsistency _
    · next u hu => exact (h _ u (.underlying hvalue hu)).bind fun _ => endAlike_ok _
  · exact endAlike_ok _
  · exact endAlike_inconsistency _

/-- The type that a node names below the enclosing structs, where at most the given number of
declarations is followed, one inside the other. -/
def ofTypeNameWithin (ts : Trees) (root : String) (steps : Nat) (enclosing : List Int) (n : Node) :
    Except Error SourceType :=
  (TypeName.ofNode n).resolve fun reference => do
    ofDefinitionWithin (ts.definition root) steps enclosing (← ts.definition root reference)

theorem ofDefinitionWithin_succ (ts : Trees) (root : String) (steps : Nat) :
    ofDefinitionWithin (ts.definition root) (steps + 1) = define (ofTypeNameWithin ts root steps) :=
  rfl

theorem endAlike_ofTypeNameWithin (hu : ts.Resolves root u)
    (h : ∀ d ∈ ts.allNodes root, EndAlike
      (ofDefinitionWithin (ts.definition root) steps enclosing d)
      (ofDefinitionWithin (ts.definition root) steps' enclosing d)) :
    EndAlike (ofTypeNameWithin ts root steps enclosing u)
      (ofTypeNameWithin ts root steps' enclosing u) := by
  refine TypeName.endAlike_resolve fun id hid => ?_
  obtain ⟨d, hd, hmem⟩ := hu.definition (TypeName.references_ofNode_subset u hid)
  rw [hd]
  exact h d hmem

/-- A definition needs one step more than there are structs that can still be entered. -/
theorem endAlike_ofDefinitionWithin (hts : ts.TypesDeclared root) (hn : n ∈ ts.allNodes root)
    (hsteps : ts.room root enclosing < steps) (hsteps' : ts.room root enclosing < steps') :
    EndAlike (ofDefinitionWithin (ts.definition root) steps enclosing n)
      (ofDefinitionWithin (ts.definition root) steps' enclosing n) := by
  induction steps generalizing steps' enclosing n with
  | zero => exact absurd hsteps (Nat.not_lt_zero _)
  | succ steps ih =>
    obtain ⟨steps', rfl⟩ := Nat.exists_eq_add_one_of_ne_zero (Nat.ne_zero_of_lt hsteps')
    rw [ofDefinitionWithin_succ, ofDefinitionWithin_succ]
    refine endAlike_define fun inner u hasks => ?_
    cases hasks with
    | @member m _ hkind hnew hm hu =>
      have hroom := Trees.room_cons_lt hn hnew
      refine endAlike_ofTypeNameWithin (((hts.references n hn).of_mem_children hm).child hu) ?_
      exact fun d hd => ih hd (by omega) (by omega)
    | underlying hkind hu =>
      -- nothing is followed from an elementary type
      refine TypeName.endAlike_resolve fun id hid => ?_
      rw [TypeName.references_ofNode_of_elementary (hts.values n hn hkind u hu)] at hid
      cases hid

theorem lt_chainBound (ts : Trees) (root : String) : ts.nodeCount root + 1 < chainBound ts root := by
  exact Nat.lt_of_lt_of_le (Nat.lt_succ_self _) (Nat.le_mul_of_pos_left _ (Nat.succ_pos _))

/-- Resolving a type name always ends. -/
theorem settles_ofTypeNameWithin (hts : ts.TypesDeclared root) (hn : ts.Resolves root n) :
    Settles (fun steps => ofTypeNameWithin ts root steps enclosing n) (chainBound ts root) := by
  refine settles_of_endAlike fun steps hsteps => endAlike_ofTypeNameWithin hn fun d hd => ?_
  have hroom : ts.room root enclosing ≤ ts.nodeCount root := Trees.room_le
  have hbound := lt_chainBound ts root
  exact endAlike_ofDefinitionWithin hts hd (by omega) (by omega)

/-- Resolving a definition always ends, also that of a node that no source has. -/
theorem settles_ofDefinitionWithin (hts : ts.TypesDeclared root) (hn : ts.Resolves root n) :
    Settles (fun steps => ofDefinitionWithin (ts.definition root) steps enclosing n)
      (chainBound ts root) := by
  refine settles_of_endAlike fun steps hsteps => ?_
  have hbound := lt_chainBound ts root
  obtain ⟨least, hleast⟩ := Nat.exists_eq_add_one_of_ne_zero (Nat.ne_zero_of_lt hbound)
  obtain ⟨steps, rfl⟩ := Nat.exists_eq_add_one_of_ne_zero
    (Nat.ne_zero_of_lt (Nat.lt_of_lt_of_le hbound hsteps))
  rw [hleast, ofDefinitionWithin_succ, ofDefinitionWithin_succ]
  refine endAlike_define fun inner u hasks => endAlike_ofTypeNameWithin ?_ fun d hd => ?_
  · cases hasks with
    | member hkind hnew hm hu => exact (hn.of_mem_children hm).child hu
    | underlying hkind hu => exact hn.child hu
  · have hroom : ts.room root inner ≤ ts.nodeCount root := Trees.room_le
    exact endAlike_ofDefinitionWithin hts hd (by omega) (by omega)

end SourceType

end Settling

/-! Declarations of types, written down. -/

namespace Json

/-- The name of a type that is not declared in a source. -/
def elementaryName (id : Nat) (name : String) : Json :=
  .object [("id", .ofNat id), ("nodeType", "ElementaryTypeName"), ("name", name),
    ("typeDescriptions", .object [("typeString", name)])]

def declaredName (id reference : Nat) (typeString : String) : Json :=
  .object [("id", .ofNat id), ("nodeType", "UserDefinedTypeName"),
    ("referencedDeclaration", .ofNat reference),
    ("typeDescriptions", .object [("typeString", typeString)])]

def arrayName (id : Nat) (element : Json) (typeString : String) : Json :=
  .object [("id", .ofNat id), ("nodeType", "ArrayTypeName"), ("baseType", element),
    ("typeDescriptions", .object [("typeString", typeString)])]

def mappingName (id : Nat) (key value : Json) (typeString : String) : Json :=
  .object [("id", .ofNat id), ("nodeType", "Mapping"), ("keyType", key), ("valueType", value),
    ("typeDescriptions", .object [("typeString", typeString)])]

/-- A member of a struct, or a parameter. -/
def declaration (id : Nat) (name : String) (typeName : Json) : Json :=
  .object [("id", .ofNat id), ("nodeType", "VariableDeclaration"), ("name", name),
    ("typeName", typeName)]

end Json

def Node.ofStruct (id : Nat) (name : String) (members : List Json) : Node where
  id := id
  kind := "StructDefinition"
  contract := none
  lang := .solidity
  fields := [("id", .ofNat id), ("name", name), ("canonicalName", name),
    ("members", .array members)]

def Node.ofValueType (id : Nat) (name : String) (underlying : Json) : Node where
  id := id
  kind := "UserDefinedValueTypeDefinition"
  contract := none
  lang := .solidity
  fields := [("id", .ofNat id), ("name", name), ("canonicalName", name),
    ("underlyingType", underlying)]

end ContractModel
