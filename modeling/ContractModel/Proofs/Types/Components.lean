import ContractModel.Proofs.Types.CanonicalType
import ContractModel.Proofs.Types.Following
import ContractModel.Proofs.Types.Parameter
import Mathlib.Logic.Relation

/-! # The components of struct parameters

Resolving a parameter enters the structs inside it, each at most once on the way down. So it ends,
and a parameter whose struct does not lead back to itself has the types that the members have on
their own as components.
-/

namespace ContractModel

open Relation

theorem Dimensions.typeReferences_base_subset {n base : Node} {ds : List Int}
    (h : ofNode n = .ok (ds, base)) : base.typeReferences ⊆ n.typeReferences := by
  fun_induction Dimensions.ofNode n generalizing ds with
  | case1 => cases h
  | case2 n _ element helement ih =>
    obtain ⟨⟨ds', base'⟩, hbase, h⟩ := Run.except_bind_eq_ok_iff.1 h
    cases h
    exact List.Subset.trans (ih hbase) (Node.typeReferences_child_subset helement)
  | case3 =>
    cases h
    exact List.Subset.refl _

namespace ParameterType

variable {ts : Trees} {root : String} {inLibrary : Bool} {enclosing enclosing' : List Int}
  {parameter p m d e : Node} {t u : ParameterType}
  {member member' : List Int → Node → Except Error ParameterType}

/-- The struct that the base of a parameter's type name refers to. -/
def struct? (ts : Trees) (root : String) (parameter : Node) : Option Node := do
  let base ← base? parameter
  let reference ← base.typeReference?
  (ts.node? root reference).filter fun d => d.is "StructDefinition"

/-- The types of the members of a struct, none inside itself. -/
def componentsOf (member : List Int → Node → Except Error ParameterType) (enclosing : List Int) :
    Option Node → Except Error (List ParameterType)
  | none => .ok []
  | some d =>
    if enclosing.contains d.id then .ok []
    else (d.children "members").mapM (member (d.id :: enclosing))

theorem componentsOf_of_mem (h : d.id ∈ enclosing) :
    componentsOf member enclosing (some d) = .ok [] :=
  if_pos (List.contains_iff_mem.2 h)

theorem componentsOf_of_notMem (h : d.id ∉ enclosing) :
    componentsOf member enclosing (some d) =
      (d.children "members").mapM (member (d.id :: enclosing)) :=
  if_neg fun hmem => h (List.contains_iff_mem.1 hmem)

section Struct

/-- The second parameter is a member of the struct of the first. -/
def Nests (ts : Trees) (root : String) (p m : Node) : Prop :=
  ∃ d, struct? ts root p = some d ∧ m ∈ d.children "members"

/-- A struct of the parameter, of a member of its struct and so on. -/
def LeadsTo (ts : Trees) (root : String) (p d : Node) : Prop :=
  ∃ m, ReflTransGen (Nests ts root) p m ∧ struct? ts root m = some d

/-- A struct that its own members lead to. -/
def Recursive (ts : Trees) (root : String) (d : Node) : Prop :=
  ∃ m ∈ d.children "members", LeadsTo ts root m d

theorem struct?_eq_some (h : struct? ts root p = some d) :
    ts.definition root d.id = .ok d ∧ d.is "StructDefinition" := by
  obtain ⟨base, -, h⟩ := Option.bind_eq_some_iff.1 h
  obtain ⟨reference, -, h⟩ := Option.bind_eq_some_iff.1 h
  obtain ⟨hd, hkind⟩ := Option.filter_eq_some_iff.1 h
  have hd := Trees.definition_eq_ok_iff.2 hd
  rw [(Trees.definition_eq_ok hd).1]
  exact ⟨hd, hkind⟩

/-- Structs are told apart by their identifiers. -/
theorem eq_of_id_eq (hd : struct? ts root p = some d) (he : struct? ts root m = some e)
    (h : e.id = d.id) : e = d := by
  have he := (struct?_eq_some he).1
  rw [h, (struct?_eq_some hd).1] at he
  exact (Except.ok.inj he).symm

theorem LeadsTo.head (hd : struct? ts root p = some d) (hm : m ∈ d.children "members")
    (h : LeadsTo ts root m e) : LeadsTo ts root p e := by
  obtain ⟨q, hq, he⟩ := h
  exact ⟨q, .head ⟨d, hd, hm⟩ hq, he⟩

/-- Identifiers from which members do not lead away show that a struct is not recursive. -/
theorem not_recursive_of_closed {ids : List Int} (hnot : d.id ∉ ids)
    (hmembers : ∀ m ∈ d.children "members", ∀ e ∈ struct? ts root m, e.id ∈ ids)
    (hclosed : ∀ e ∈ ts.allNodes root, e.id ∈ ids →
      ∀ m ∈ e.children "members", ∀ e' ∈ struct? ts root m, e'.id ∈ ids) :
    ¬ Recursive ts root d := by
  rintro ⟨m, hm, q, hq, hd⟩
  have hreached : ∀ e ∈ struct? ts root q, e.id ∈ ids := by
    clear hd
    induction hq with
    | refl => exact hmembers m hm
    | tail _ hnests ih =>
      obtain ⟨e, he, hmem⟩ := hnests
      exact hclosed e (Trees.mem_allNodes_of_definition (struct?_eq_some he).1) (ih e he) _ hmem
  exact hnot (hreached d hd)

end Struct

section Reading

variable {base : Node} {declared : Option Declared}

theorem struct?_eq {typeName : Node} {ds : List Int}
    (hname : parameter.child? "typeName" = some typeName)
    (hbase : Dimensions.ofNode typeName = .ok (ds, base))
    (hdeclared : declaredOf (ts.definition root) base = .ok declared) :
    struct? ts root parameter =
      (declared.map Declared.definition).filter fun d => d.is "StructDefinition" := by
  have hbase : base? parameter = some base := by rw [base?, hname, Option.bind_some, hbase]; rfl
  unfold declaredOf at hdeclared
  rw [struct?, hbase, Option.bind_eq_bind, Option.bind_some, Node.typeReference?]
  split at hdeclared
  · next hkind =>
    rw [if_pos hkind]
    split at hdeclared
    · cases hdeclared
    · next reference href =>
      obtain ⟨d, hd, h⟩ := Run.except_bind_eq_ok_iff.1 hdeclared
      cases h
      rw [href, Option.bind_eq_bind, Option.bind_some, Trees.definition_eq_ok_iff.1 hd]
      rfl
  · next hkind =>
    cases hdeclared
    rw [if_neg hkind]
    rfl

theorem membersOf_eq : membersOf member enclosing declared =
    componentsOf member enclosing
      ((declared.map Declared.definition).filter fun d => d.is "StructDefinition") := by
  cases declared with
  | none => rfl
  | some d =>
    simp only [membersOf, Option.map_some, Option.filter_some]
    cases d.definition.is "StructDefinition" with
    | false => rfl
    | true =>
      simp only [if_true, Bool.true_and, componentsOf]
      cases enclosing.contains d.definition.id <;> rfl

/-- A tuple that is no library's type and no enumeration is written with its components. -/
theorem signature_of_isTuple (htuple : t.isTuple = true) (huint8 : t.isUint8Alias = false)
    (hlibrary : t.librarySignature = none) : t.signature =
      tupleText t.components ++ (dimensionsText t.dimensions ++
        if t.isStorage then " storage" else "") := by
  cases t
  cases htuple
  cases huint8
  cases hlibrary
  simp only [signature, signatures_eq, tupleText, Bool.false_eq_true, if_false, if_true]

/-- A parameter that was resolved has the components of its struct, whose types make up the
signature outside of libraries. -/
theorem components_of_ofParameterWith
    (h : ofParameterWith ts root inLibrary member enclosing parameter = .ok t) :
    componentsOf member enclosing (struct? ts root parameter) = .ok t.components ∧
      (inLibrary = false → (struct? ts root parameter).isSome → t.signature =
        tupleText t.components ++ (dimensionsText t.dimensions ++
          if inStorage parameter then " storage" else "")) := by
  obtain ⟨typeName, base, declared, hread⟩ := readFrom_of_ofParameterWith h
  have hstruct := struct?_eq hread.child hread.dimensions hread.declaration
  refine ⟨by rw [hstruct, ← membersOf_eq, hread.components], ?_⟩
  rintro rfl hsome
  rw [hstruct] at hsome
  obtain ⟨d, hd⟩ := Option.isSome_iff_exists.1 hsome
  obtain ⟨hd, hkind⟩ := Option.filter_eq_some_iff.1 hd
  obtain ⟨found, rfl, rfl⟩ := Option.map_eq_some_iff.1 hd
  have henum : found.definition.is "EnumDefinition" = false := by
    unfold Node.is at hkind ⊢
    rw [eq_of_beq hkind]
    decide
  have htuple : t.isTuple = true := hread.isTuple.trans hkind
  have huint8 : t.isUint8Alias = false := hread.isUint8Alias.trans henum
  have hlibrary : t.librarySignature = none := hread.librarySignature
  rw [signature_of_isTuple htuple huint8 hlibrary, hread.isStorage]

end Reading

section Ending

variable {steps steps' : Nat} {base : Node}

theorem endAlike_typeNameOf (n : Node) : EndAlike (typeNameOf n) (typeNameOf n) := by
  unfold typeNameOf
  split
  · exact endAlike_inconsistency _
  · exact endAlike_ok _

theorem endAlike_typeStringOf (n : Node) : EndAlike (typeStringOf n) (typeStringOf n) := by
  unfold typeStringOf
  split
  · exact endAlike_inconsistency _
  · exact endAlike_ok _

theorem endAlike_dimensions (n : Node) : EndAlike (Dimensions.ofNode n) (Dimensions.ofNode n) := by
  fun_induction Dimensions.ofNode n with
  | case1 => exact endAlike_inconsistency _
  | case2 n _ element _ ih => exact ih.bind fun _ => endAlike_ok _
  | case3 => exact endAlike_ok _

theorem endAlike_declaredOf (h : ts.Resolves root base) :
    EndAlike (declaredOf (ts.definition root) base) (declaredOf (ts.definition root) base) := by
  unfold declaredOf
  split
  · next hkind =>
    split
    · exact endAlike_inconsistency _
    · next reference href =>
      have hmem : reference ∈ base.typeReferences := by
        refine List.mem_append_left _ (Option.mem_toList.2 ?_)
        rw [Node.typeReference?, if_pos hkind, href]
      obtain ⟨d, hd, -⟩ := h.definition hmem
      rw [hd]
      exact endAlike_ok _
  · exact endAlike_ok _

/-- Two ways to resolve members resolve a parameter alike if they do so with its components. -/
theorem endAlike_ofParameterWith (hts : ts.TypesDeclared root) (hp : ts.Resolves root parameter)
    (h : EndAlike (componentsOf member enclosing (struct? ts root parameter))
      (componentsOf member' enclosing' (struct? ts root parameter))) :
    EndAlike (ofParameterWith ts root inLibrary member enclosing parameter)
      (ofParameterWith ts root inLibrary member' enclosing' parameter) := by
  refine (endAlike_typeNameOf parameter).bind_of_ok fun typeName hname => ?_
  refine (endAlike_dimensions typeName).bind_of_ok fun ⟨ds, base⟩ hbase => ?_
  have hname := typeNameOf_eq_ok_iff.1 hname
  have hresolves : ts.Resolves root base :=
    fun id hid => hp.child hname id (Dimensions.typeReferences_base_subset hbase hid)
  refine (endAlike_typeStringOf base).bind fun typeString => ?_
  refine (endAlike_declaredOf hresolves).bind_of_ok fun declared hdeclared => ?_
  have hsource : EndAlike (SourceType.ofTypeName ts root base) (SourceType.ofTypeName ts root base) :=
    ⟨rfl, (SourceType.settles_ofTypeNameWithin hts hresolves).fault⟩
  refine hsource.bind fun sourceType => ?_
  rw [struct?_eq hname hbase hdeclared, ← membersOf_eq, ← membersOf_eq] at h
  exact h.bind fun components => endAlike_ok _

/-- As many steps suffice as there are structs that can still be entered, and one more; enclosing
structs that a parameter does not lead to are of no importance. -/
theorem endAlike_ofParameterWithin (hts : ts.TypesDeclared root) (hp : ts.Resolves root p)
    (hsame : ∀ d, LeadsTo ts root p d → (d.id ∈ enclosing ↔ d.id ∈ enclosing'))
    (hsteps : ts.room root enclosing < steps) (hsteps' : ts.room root enclosing' < steps') :
    EndAlike (ofParameterWithin ts root inLibrary steps enclosing p)
      (ofParameterWithin ts root inLibrary steps' enclosing' p) := by
  induction steps generalizing steps' enclosing enclosing' p with
  | zero => exact absurd hsteps (Nat.not_lt_zero _)
  | succ steps ih =>
    obtain ⟨steps', rfl⟩ := Nat.exists_eq_add_one_of_ne_zero (Nat.ne_zero_of_lt hsteps')
    refine endAlike_ofParameterWith hts hp ?_
    cases hd : struct? ts root p with
    | none => exact endAlike_ok []
    | some d =>
      have hmem := Trees.mem_allNodes_of_definition (struct?_eq_some hd).1
      have hmet : d.id ∈ enclosing ↔ d.id ∈ enclosing' := hsame d ⟨p, .refl, hd⟩
      by_cases hnew : d.id ∈ enclosing
      · rw [componentsOf_of_mem hnew, componentsOf_of_mem (hmet.1 hnew)]
        exact endAlike_ok []
      · have hnew' : d.id ∉ enclosing' := fun h => hnew (hmet.2 h)
        rw [componentsOf_of_notMem hnew, componentsOf_of_notMem hnew']
        refine EndAlike.mapM fun m hm => ih ((hts.references d hmem).of_mem_children hm) ?_ ?_ ?_
        · intro e he
          rw [List.mem_cons, List.mem_cons, hsame e (he.head hd hm)]
        · exact Nat.lt_of_lt_of_le (Trees.room_cons_lt hmem hnew) (Nat.le_of_lt_succ hsteps)
        · exact Nat.lt_of_lt_of_le (Trees.room_cons_lt hmem hnew') (Nat.le_of_lt_succ hsteps')

end Ending

/-- The type of a parameter that stands in the given structs. -/
def ofParameterBelow (ts : Trees) (root : String) (inLibrary : Bool) (enclosing : List Int)
    (p : Node) : Except Error ParameterType :=
  ofParameterWithin ts root inLibrary (SourceType.chainBound ts root) enclosing p

theorem room_lt_chainBound (ts : Trees) (root : String) (enclosing : List Int) :
    ts.room root enclosing < SourceType.chainBound ts root :=
  Nat.lt_of_le_of_lt Trees.room_le
    (Nat.lt_of_succ_lt (SourceType.lt_chainBound ts root))

/-- Resolving a parameter always ends. -/
theorem settles_ofParameterWithin (hts : ts.TypesDeclared root) (hp : ts.Resolves root p) :
    Settles (fun steps => ofParameterWithin ts root inLibrary steps enclosing p)
      (SourceType.chainBound ts root) :=
  settles_of_endAlike fun _ hsteps =>
    have hroom := room_lt_chainBound ts root enclosing
    endAlike_ofParameterWithin hts hp (fun _ _ => Iff.rfl) hroom (Nat.lt_of_lt_of_le hroom hsteps)

/-- What is resolved inside a struct is resolved in the same way. -/
theorem ofParameterBelow_eq (hts : ts.TypesDeclared root) (hp : ts.Resolves root p) :
    ofParameterBelow ts root inLibrary enclosing p =
      ofParameterWith ts root inLibrary (ofParameterBelow ts root inLibrary) enclosing p :=
  ((settles_ofParameterWithin hts hp).stable _ (Nat.le_succ _)).symm

/-- Structs that a parameter does not lead to do not change its type. -/
theorem ofParameterBelow_eq_ofParameter (hts : ts.TypesDeclared root) (hp : ts.Resolves root p)
    (hapart : ∀ d, LeadsTo ts root p d → d.id ∉ enclosing) :
    ofParameterBelow ts root inLibrary enclosing p = ofParameter ts root inLibrary p := by
  refine (endAlike_ofParameterWithin hts hp (fun d hd => ?_) (room_lt_chainBound ts root _)
    (room_lt_chainBound ts root _)).eq
  exact iff_of_false (hapart d hd) List.not_mem_nil

/-- A parameter inside another one, with the structs that it stands in and its type there. -/
inductive Part (ts : Trees) (root : String) (parameter : Node) (t : ParameterType) :
    List Int → Node → ParameterType → Prop
  | whole : Part ts root parameter t [] parameter t
  | component {enclosing : List Int} {p d m : Node} {u v : ParameterType}
    (h : Part ts root parameter t enclosing p u) (hd : struct? ts root p = some d)
    (hm : (m, v) ∈ (d.children "members").zip u.components) :
    Part ts root parameter t (d.id :: enclosing) m v

/-- The components are the types of the members of the struct, in their order. There are none
inside the same struct, and none where there is no struct. -/
structure ListsComponents (ts : Trees) (root : String) (inLibrary : Bool) (enclosing : List Int)
    (p : Node) (u : ParameterType) : Prop where
  ofNew : ∀ d, struct? ts root p = some d → d.id ∉ enclosing →
    List.Forall₂ (fun m v => ofParameterBelow ts root inLibrary (d.id :: enclosing) m = .ok v)
      (d.children "members") u.components
  ofMet : ∀ d, struct? ts root p = some d → d.id ∈ enclosing → u.components = []
  ofOther : struct? ts root p = none → u.components = []

theorem listsComponents_of_ofParameterBelow (hts : ts.TypesDeclared root)
    (hp : ts.Resolves root p) (h : ofParameterBelow ts root inLibrary enclosing p = .ok u) :
    ListsComponents ts root inLibrary enclosing p u := by
  rw [ofParameterBelow_eq hts hp] at h
  obtain ⟨hcomponents, -⟩ := components_of_ofParameterWith h
  constructor
  case ofNew =>
    intro d hd hnew
    rw [hd, componentsOf_of_notMem hnew] at hcomponents
    exact Run.forall₂_of_mapM_eq_ok hcomponents
  case ofMet =>
    intro d hd hmet
    rw [hd, componentsOf_of_mem hmet] at hcomponents
    exact (Except.ok.inj hcomponents).symm
  case ofOther =>
    intro hnone
    rw [hnone] at hcomponents
    exact (Except.ok.inj hcomponents).symm

theorem Part.ofParameterBelow (hts : ts.TypesDeclared root) (hp : ts.Resolves root parameter)
    (ht : ofParameter ts root inLibrary parameter = .ok t)
    (h : Part ts root parameter t enclosing p u) :
    ts.Resolves root p ∧ ofParameterBelow ts root inLibrary enclosing p = .ok u := by
  induction h with
  | whole => exact ⟨hp, ht⟩
  | @component enclosing p d m u v _ hd hm ih =>
    obtain ⟨hp, hu⟩ := ih
    have hlists := listsComponents_of_ofParameterBelow hts hp hu
    have hmem := Trees.mem_allNodes_of_definition (struct?_eq_some hd).1
    have hnew : d.id ∉ enclosing := by
      intro hmet
      rw [hlists.ofMet d hd hmet, List.zip_nil_right] at hm
      cases hm
    exact ⟨(hts.references d hmem).of_mem_children (List.of_mem_zip hm).1,
      (List.forall₂_iff_zip.1 (hlists.ofNew d hd hnew)).2 hm⟩

/-- The members of a struct that is not recursive have the types that they have on their own. -/
theorem components_of_not_recursive (hts : ts.TypesDeclared root) (hp : ts.Resolves root p)
    (hd : struct? ts root p = some d) (hrecursive : ¬ Recursive ts root d)
    (h : ofParameter ts root inLibrary p = .ok t) :
    List.Forall₂ (fun m v => ofParameter ts root inLibrary m = .ok v)
      (d.children "members") t.components := by
  have hmem := Trees.mem_allNodes_of_definition (struct?_eq_some hd).1
  have hall := (listsComponents_of_ofParameterBelow hts hp h).ofNew d hd List.not_mem_nil
  have hboth := (List.forall₂_and_left _ _).2 ⟨fun m hm => hm, hall⟩
  refine hboth.imp fun m v hmv => ?_
  obtain ⟨hm, hv⟩ := hmv
  rw [← hv, ofParameterBelow_eq_ofParameter hts ((hts.references d hmem).of_mem_children hm)]
  intro e he hsame
  obtain ⟨q, hq, he⟩ := he
  have heq : e = d := eq_of_id_eq hd he (List.mem_singleton.1 hsame)
  exact hrecursive ⟨m, hm, q, hq, heq ▸ he⟩

/-- Where the declarations of types exist, resolving a parameter always ends. Each part of its type
is the resolution of a member, and has the members of its struct as components except inside the
same struct. Outside of libraries the signature of a struct that is not recursive lists the
signatures of its members. -/
theorem ofParameter_expands (hts : ts.TypesDeclared root) (hp : ts.Resolves root parameter) :
    Settles (fun steps => ofParameterWithin ts root inLibrary steps [] parameter)
      (SourceType.chainBound ts root) ∧
    ∀ t, ofParameter ts root inLibrary parameter = .ok t →
      (∀ enclosing p u, Part ts root parameter t enclosing p u →
        ofParameterBelow ts root inLibrary enclosing p = .ok u ∧
          ListsComponents ts root inLibrary enclosing p u) ∧
      ∀ d, struct? ts root parameter = some d → ¬ Recursive ts root d →
        List.Forall₂ (fun m u => ofParameter ts root inLibrary m = .ok u)
            (d.children "members") t.components ∧
          (inLibrary = false → t.signature = tupleText t.components ++
            (dimensionsText t.dimensions ++ if inStorage parameter then " storage" else "")) := by
  refine ⟨settles_ofParameterWithin hts hp, fun t ht => ⟨fun enclosing p u hpart => ?_, ?_⟩⟩
  · obtain ⟨hp, hu⟩ := hpart.ofParameterBelow hts hp ht
    exact ⟨hu, listsComponents_of_ofParameterBelow hts hp hu⟩
  · intro d hd hrecursive
    refine ⟨components_of_not_recursive hts hp hd hrecursive ht, fun hlibrary => ?_⟩
    have hbelow : ofParameterBelow ts root inLibrary [] parameter = .ok t := ht
    rw [ofParameterBelow_eq hts hp] at hbelow
    exact (components_of_ofParameterWith hbelow).2 hlibrary (by rw [hd]; rfl)

section Orders

/-! An array of orders with lines, where lines consist of further lines. -/

def line : Node := .ofStruct 20 "Line"
  [.declaration 21 "amount" (.elementaryName 22 "uint256"),
    .declaration 23 "parts" (.arrayName 24 (.declaredName 25 20 "struct Line") "struct Line[]")]

def order : Node := .ofStruct 2 "Order"
  [.declaration 3 "number" (.elementaryName 4 "uint256"),
    .declaration 5 "lines" (.arrayName 6 (.declaredName 7 20 "struct Line") "struct Line[]")]

def shop : Trees := (SyntaxIndex.ofNodes "Shop.sol" [order, line]).trees

/-- The declaration of a parameter of the type `Order[] storage`. -/
def orders : Node where
  id := 30
  kind := "VariableDeclaration"
  contract := none
  lang := .solidity
  fields := [("id", .ofNat 30), ("name", "orders"), ("storageLocation", "storage"),
    ("typeName", .arrayName 31 (.declaredName 32 2 "struct Order") "struct Order[]")]

theorem ofParameter_expands_orders : shop.TypesDeclared "Shop.sol" ∧
    shop.Resolves "Shop.sol" orders ∧ ∃ d t, struct? shop "Shop.sol" orders = some d ∧
    ¬ Recursive shop "Shop.sol" d ∧ ofParameter shop "Shop.sol" false orders = .ok t ∧
    List.Forall₂ (fun m u => ofParameter shop "Shop.sol" false m = .ok u)
      (d.children "members") t.components ∧
    t.signature = tupleText t.components ++
      (dimensionsText t.dimensions ++ if inStorage orders then " storage" else "") := by
  have hts : shop.TypesDeclared "Shop.sol" := by decide +kernel
  have hp : shop.Resolves "Shop.sol" orders := by decide +kernel
  obtain ⟨d, hd, hnot, hmembers⟩ : ∃ d ∈ struct? shop "Shop.sol" orders, d.id ∉ [20] ∧
      ∀ m ∈ d.children "members", ∀ e ∈ struct? shop "Shop.sol" m, e.id ∈ [20] := by
    decide +kernel
  have hrecursive : ¬ Recursive shop "Shop.sol" d :=
    not_recursive_of_closed hnot hmembers (by decide +kernel)
  have hok : (ofParameter shop "Shop.sol" false orders).toOption.isSome := by decide +kernel
  obtain ⟨t, ht⟩ := Option.isSome_iff_exists.1 hok
  have ht := Run.toOption_eq_some_iff.1 ht
  obtain ⟨hcomponents, hsignature⟩ :=
    ((ofParameter_expands hts hp).2 t ht).2 d hd hrecursive
  exact ⟨hts, hp, d, t, hd, hrecursive, ht, hcomponents, hsignature rfl⟩

example : (ofParameter shop "Shop.sol" false orders).toOption.map signature =
    some "(uint256,(uint256,()[])[])[] storage" := by decide +kernel

end Orders

end ParameterType

end ContractModel
