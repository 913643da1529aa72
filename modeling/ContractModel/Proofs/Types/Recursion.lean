import ContractModel.Proofs.Types.Following

/-! # Structs inside themselves

A resolved type is a tree that ends also where structs refer to themselves: a struct lists the
members of its definition, unless it stands inside a struct with the same declaration.
-/

namespace ContractModel.SourceType

variable {ts : Trees} {root : String} {enclosing : List Int} {n u d m : Node} {t part : SourceType}
  {i : TypeIdentity} {ms : List (String × SourceType)}

/-- A part of a type, with the structs that it stands in, from the innermost. -/
inductive Occurs : SourceType → List Int → SourceType → Prop
  | here {t : SourceType} : Occurs t [] t
  | domain {typeString : String} {t u part : SourceType} {contract : Option String}
    {reference : Int} {within : List Int} (h : Occurs t within part) :
    Occurs (.mapping typeString t u contract reference) within part
  | codomain {typeString : String} {t u part : SourceType} {contract : Option String}
    {reference : Int} {within : List Int} (h : Occurs u within part) :
    Occurs (.mapping typeString t u contract reference) within part
  | element {typeString : String} {t part : SourceType} {length : Option Nat}
    {contract : Option String} {reference : Int} {within : List Int} (h : Occurs t within part) :
    Occurs (.array typeString t length contract reference) within part
  | member {i : TypeIdentity} {ms : List (String × SourceType)} {member : String × SourceType}
    {part : SourceType} {within : List Int} (hmem : member ∈ ms) (h : Occurs member.2 within part) :
    Occurs (.record i ms) (within ++ [i.reference]) part
  | underlying {i : TypeIdentity} {t part : SourceType} {within : List Int}
    (h : Occurs t within part) : Occurs (.value i t) within part

mutual

/-- The type is the one that the name names. -/
inductive Named (ts : Trees) (root : String) : TypeName → SourceType → Prop
  | primitive {name typeString : String} :
    Named ts root (.primitive name typeString) (.primitive name typeString)
  | mapping {typeString : String} {domain codomain : TypeName} {t u : SourceType}
    {contract : Option String} {reference : Int} (hdomain : Named ts root domain t)
    (hcodomain : Named ts root codomain u) :
    Named ts root (.mapping typeString domain codomain contract reference)
      (.mapping typeString t u contract reference)
  | array {typeString : String} {element : TypeName} {t : SourceType} {length : Option Nat}
    {contract : Option String} {reference : Int} (helement : Named ts root element t) :
    Named ts root (.array typeString element length contract reference)
      (.array typeString t length contract reference)
  | declared {reference : Int} {d : Node} {t : SourceType}
    (hd : ts.definition root reference = .ok d) (ht : Defined ts root d t) :
    Named ts root (.declared reference) t

/-- The type is the one that the node defines, whatever members it has if it is a struct. -/
inductive Defined (ts : Trees) (root : String) : Node → SourceType → Prop
  | enumeration {d : Node} {canonical : String} (hkind : d.is "EnumDefinition")
    (hcanonical : canonicalName d = .ok canonical) :
    Defined ts root d (.enumeration
      (identityOf d (d.typeString?.getD ("enum " ++ canonical)) canonical)
      ((d.children "members").filterMap Node.name?))
  | record {d : Node} {canonical : String} {ms : List (String × SourceType)}
    (hkind : d.is "StructDefinition") (hcanonical : canonicalName d = .ok canonical) :
    Defined ts root d (.record (identityOf d ("struct " ++ canonical) canonical) ms)
  | value {d u : Node} {canonical : String} {t : SourceType}
    (hkind : d.is "UserDefinedValueTypeDefinition") (hcanonical : canonicalName d = .ok canonical)
    (hu : d.child? "underlyingType" = some u) (ht : Named ts root (TypeName.ofNode u) t) :
    Defined ts root d (.value (identityOf d canonical canonical) t)
  | contract {d : Node} (hkind : d.is "ContractDefinition") : Defined ts root d (.ofName "address")

end

/-- The name and the type of a member are as its node says. -/
structure DescribesMember (ts : Trees) (root : String) (m : Node) (member : String × SourceType) :
    Prop where
  name : member.1 = m.name
  type : ∃ typeName, m.child? "typeName" = some typeName ∧
    Named ts root (TypeName.ofNode typeName) member.2

/-- The struct has the members of its definition in their order, except inside itself. -/
structure ListsMembers (ts : Trees) (root : String) (enclosing : List Int) (d : Node)
    (i : TypeIdentity) (ms : List (String × SourceType)) : Prop where
  kind : d.is "StructDefinition"
  reference : i.reference = d.id
  eq_nil_iff : ms = [] ↔ d.children "members" = [] ∨ i.reference ∈ enclosing
  members : i.reference ∉ enclosing →
    List.Forall₂ (DescribesMember ts root) (d.children "members") ms

/-- Every struct in the type has the members of the definition that it refers to. -/
def Expanded (ts : Trees) (root : String) (enclosing : List Int) (t : SourceType) : Prop :=
  ∀ within i ms, Occurs t within (.record i ms) →
    ∃ d, ts.definition root i.reference = .ok d ∧
      ListsMembers ts root (within ++ enclosing) d i ms

/-- Every struct in the type has the members of the definition that it refers to, which is the node
itself for the type as a whole. -/
def ExpandedFrom (ts : Trees) (root : String) (n : Node) (enclosing : List Int) (t : SourceType) :
    Prop :=
  ∀ within i ms, Occurs t within (.record i ms) →
    ∃ d, ((within = [] ∧ d = n) ∨ ts.definition root i.reference = .ok d) ∧
      ListsMembers ts root (within ++ enclosing) d i ms

section Definitions

variable {resolve : List Int → Node → Except Error SourceType}

/-- What a definition comes to. -/
inductive Made (resolve : List Int → Node → Except Error SourceType) (enclosing : List Int)
    (n : Node) : SourceType → Prop
  | enumeration {canonical : String} (hkind : n.is "EnumDefinition")
    (hcanonical : canonicalName n = .ok canonical) :
    Made resolve enclosing n (.enumeration
      (identityOf n (n.typeString?.getD ("enum " ++ canonical)) canonical)
      ((n.children "members").filterMap Node.name?))
  | met {canonical : String} (hkind : n.is "StructDefinition")
    (hcanonical : canonicalName n = .ok canonical) (hmet : n.id ∈ enclosing) :
    Made resolve enclosing n (.record (identityOf n ("struct " ++ canonical) canonical) [])
  | record {canonical : String} {ms : List (String × SourceType)} (hkind : n.is "StructDefinition")
    (hcanonical : canonicalName n = .ok canonical) (hnew : n.id ∉ enclosing)
    (hms : (n.children "members").mapM (memberOf (resolve (n.id :: enclosing))) = .ok ms) :
    Made resolve enclosing n (.record (identityOf n ("struct " ++ canonical) canonical) ms)
  | value {canonical : String} {u : Node} {t : SourceType}
    (hkind : n.is "UserDefinedValueTypeDefinition") (hcanonical : canonicalName n = .ok canonical)
    (hu : n.child? "underlyingType" = some u) (ht : resolve enclosing u = .ok t) :
    Made resolve enclosing n (.value (identityOf n canonical canonical) t)
  | contract (hkind : n.is "ContractDefinition") : Made resolve enclosing n (.ofName "address")

theorem made_of_define (h : define resolve enclosing n = .ok t) : Made resolve enclosing n t := by
  unfold define at h
  split_ifs at h with henum hstruct hmet hvalue hcontract
  · obtain ⟨canonical, hcanonical, h⟩ := Run.except_bind_eq_ok_iff.1 h
    cases h
    exact .enumeration henum hcanonical
  · obtain ⟨canonical, hcanonical, h⟩ := Run.except_bind_eq_ok_iff.1 h
    cases h
    exact .met hstruct hcanonical (List.contains_iff_mem.1 hmet)
  · obtain ⟨canonical, hcanonical, h⟩ := Run.except_bind_eq_ok_iff.1 h
    obtain ⟨ms, hms, h⟩ := Run.except_bind_eq_ok_iff.1 h
    cases h
    exact .record hstruct hcanonical (fun hmem => hmet (List.contains_iff_mem.2 hmem)) hms
  · obtain ⟨canonical, hcanonical, h⟩ := Run.except_bind_eq_ok_iff.1 h
    split at h
    · cases h
    · next u hu =>
      obtain ⟨t, ht, h⟩ := Run.except_bind_eq_ok_iff.1 h
      cases h
      exact .value hvalue hcanonical hu ht
  · cases h
    exact .contract hcontract

theorem memberOf_eq_ok {f : Node → Except Error SourceType} {member : String × SourceType}
    (h : memberOf f m = .ok member) : member.1 = m.name ∧
      ∃ typeName, m.child? "typeName" = some typeName ∧ f typeName = .ok member.2 := by
  unfold memberOf at h
  split at h
  · cases h
  · next typeName hname =>
    obtain ⟨t, ht, h⟩ := Run.except_bind_eq_ok_iff.1 h
    cases h
    exact ⟨rfl, typeName, hname, ht⟩

end Definitions

section Expansion

/-- A name names what its parts name, if following a reference leads to what is defined there. -/
theorem named_of_resolve {follow : Int → Except Error SourceType} {name : TypeName}
    (hfollow : ∀ reference t, follow reference = .ok t → ∃ d,
      ts.definition root reference = .ok d ∧ Defined ts root d t ∧
        ExpandedFrom ts root d enclosing t)
    (h : name.resolve follow = .ok t) : Named ts root name t ∧ Expanded ts root enclosing t := by
  induction name generalizing t with
  | primitive name s =>
    cases h
    exact ⟨.primitive, by rintro _ _ _ ⟨⟩⟩
  | declared reference =>
    obtain ⟨d, hd, hdefined, hexpanded⟩ := hfollow reference t h
    refine ⟨.declared hd hdefined, fun within i ms hoccurs => ?_⟩
    obtain ⟨d', hd', hlists⟩ := hexpanded within i ms hoccurs
    refine ⟨d', ?_, hlists⟩
    rcases hd' with ⟨-, rfl⟩ | hd'
    · rw [hlists.reference, (Trees.definition_eq_ok hd).1, hd]
    · exact hd'
  | mapping s domain codomain contract reference ihdomain ihcodomain =>
    obtain ⟨t, ht, h⟩ := Run.except_bind_eq_ok_iff.1 h
    obtain ⟨u, hu, h⟩ := Run.except_bind_eq_ok_iff.1 h
    cases h
    obtain ⟨htNamed, htExpanded⟩ := ihdomain ht
    obtain ⟨huNamed, huExpanded⟩ := ihcodomain hu
    refine ⟨.mapping htNamed huNamed, fun within i ms hoccurs => ?_⟩
    cases hoccurs with
    | domain hoccurs => exact htExpanded within i ms hoccurs
    | codomain hoccurs => exact huExpanded within i ms hoccurs
  | array s element length contract reference ih =>
    obtain ⟨t, ht, h⟩ := Run.except_bind_eq_ok_iff.1 h
    cases h
    obtain ⟨hnamed, hexpanded⟩ := ih ht
    refine ⟨.array hnamed, fun within i ms hoccurs => ?_⟩
    cases hoccurs with
    | element hoccurs => exact hexpanded within i ms hoccurs
  | malformed fault => cases h

/-- A definition is expanded if the type names that it asks for are. -/
theorem defined_of_made {resolve : List Int → Node → Except Error SourceType}
    (hresolve : ∀ inner u t, resolve inner u = .ok t →
      Named ts root (TypeName.ofNode u) t ∧ Expanded ts root inner t)
    (h : Made resolve enclosing n t) :
    Defined ts root n t ∧ ExpandedFrom ts root n enclosing t := by
  cases h with
  | enumeration hkind hcanonical => exact ⟨.enumeration hkind hcanonical, by rintro _ _ _ ⟨⟩⟩
  | @met canonical hkind hcanonical hmet =>
    refine ⟨.record hkind hcanonical, fun within i ms hoccurs => ?_⟩
    cases hoccurs with
    | here =>
      refine ⟨n, .inl ⟨rfl, rfl⟩, hkind, rfl, ?_, fun hnew => absurd hmet hnew⟩
      exact ⟨fun _ => .inr hmet, fun _ => rfl⟩
    | member hmem _ => cases hmem
  | @record canonical ms hkind hcanonical hnew hms =>
    refine ⟨.record hkind hcanonical, fun within i ms' hoccurs => ?_⟩
    have hall := Run.forall₂_of_mapM_eq_ok hms
    cases hoccurs with
    | here =>
      refine ⟨n, .inl ⟨rfl, rfl⟩, hkind, rfl, ?_, fun _ => hall.imp fun m member hmember => ?_⟩
      · change ms = [] ↔ _ ∨ n.id ∈ enclosing
        rw [or_iff_left hnew, ← List.length_eq_zero_iff, ← hall.length_eq, List.length_eq_zero_iff]
      · obtain ⟨hname, typeName, htypeName, ht⟩ := memberOf_eq_ok hmember
        exact ⟨hname, typeName, htypeName, (hresolve _ typeName _ ht).1⟩
    | @member _ _ _ _ within hmem hoccurs =>
      obtain ⟨m, -, hmember⟩ := Run.exists_of_mem_mapM hms hmem
      obtain ⟨-, typeName, -, ht⟩ := memberOf_eq_ok hmember
      obtain ⟨d, hd, hlists⟩ := (hresolve _ typeName _ ht).2 within i ms' hoccurs
      refine ⟨d, .inr hd, ?_⟩
      rw [List.append_assoc]
      exact hlists
  | value hkind hcanonical hu ht =>
    obtain ⟨hnamed, hexpanded⟩ := hresolve _ _ _ ht
    refine ⟨.value hkind hcanonical hu hnamed, fun within i ms hoccurs => ?_⟩
    cases hoccurs with
    | underlying hoccurs =>
      obtain ⟨d, hd, hlists⟩ := hexpanded within i ms hoccurs
      exact ⟨d, .inr hd, hlists⟩
  | contract hkind => exact ⟨.contract hkind, by rintro _ _ _ ⟨⟩⟩

theorem defined_of_ofDefinitionWithin {steps : Nat}
    (h : ofDefinitionWithin (ts.definition root) steps enclosing n = .ok t) :
    Defined ts root n t ∧ ExpandedFrom ts root n enclosing t := by
  induction steps generalizing enclosing n t with
  | zero => cases h
  | succ steps ih =>
    refine defined_of_made (fun inner u t ht => named_of_resolve ?_ ht) (made_of_define h)
    intro reference t ht
    obtain ⟨d, hd, ht⟩ := Run.except_bind_eq_ok_iff.1 ht
    exact ⟨d, hd, ih ht⟩

theorem named_of_ofTypeNameWithin {steps : Nat}
    (h : ofTypeNameWithin ts root steps enclosing n = .ok t) :
    Named ts root (TypeName.ofNode n) t ∧ Expanded ts root enclosing t := by
  refine named_of_resolve (fun reference t ht => ?_) h
  obtain ⟨d, hd, ht⟩ := Run.except_bind_eq_ok_iff.1 ht
  exact ⟨d, hd, defined_of_ofDefinitionWithin ht⟩

end Expansion

/-- Where the declarations of types exist, resolving the type that a node defines or names always
ends, and in the type every struct has the members of its definition except inside itself. -/
theorem resolution_settles_and_expands (hts : ts.TypesDeclared root) (hn : ts.Resolves root n) :
    (Settles (fun steps => ofDefinitionWithin (ts.definition root) steps [] n)
        (chainBound ts root) ∧
      ∀ t, ofDefinition ts root n = .ok t →
        Defined ts root n t ∧ ExpandedFrom ts root n [] t) ∧
    Settles (fun steps => ofTypeNameWithin ts root steps [] n) (chainBound ts root) ∧
      ∀ t, ofTypeName ts root n = .ok t →
        Named ts root (TypeName.ofNode n) t ∧ Expanded ts root [] t :=
  ⟨⟨settles_ofDefinitionWithin hts hn, fun _ h => defined_of_ofDefinitionWithin h⟩,
    settles_ofTypeNameWithin hts hn, fun _ h => named_of_ofTypeNameWithin h⟩

section Grove

/-! A tree has further trees in an array, and a forest in a mapping, which has trees again. -/

def tree : Node := .ofStruct 2 "Tree"
  [.declaration 3 "height" (.declaredName 4 30 "Height"),
    .declaration 5 "children" (.arrayName 6 (.declaredName 7 2 "struct Tree") "struct Tree[]"),
    .declaration 8 "forests" (.mappingName 9 (.elementaryName 10 "address")
      (.declaredName 11 20 "struct Forest") "mapping(address => struct Forest)")]

def forest : Node := .ofStruct 20 "Forest"
  [.declaration 21 "oldest" (.declaredName 22 2 "struct Tree"),
    .declaration 23 "others" (.arrayName 24 (.declaredName 25 2 "struct Tree") "struct Tree[]")]

def grove : Trees :=
  (SyntaxIndex.ofNodes "Grove.sol"
    [tree, forest, .ofValueType 30 "Height" (.elementaryName 31 "uint256")]).trees

theorem resolution_settles_and_expands_grove : grove.TypesDeclared "Grove.sol" ∧
    grove.Resolves "Grove.sol" tree ∧
    Settles (fun steps => ofDefinitionWithin (grove.definition "Grove.sol") steps [] tree)
      (chainBound grove "Grove.sol") ∧
    ∃ t, ofDefinition grove "Grove.sol" tree = .ok t ∧
      ExpandedFrom grove "Grove.sol" tree [] t := by
  have hts : grove.TypesDeclared "Grove.sol" := by decide +kernel
  have hn : grove.Resolves "Grove.sol" tree := by decide +kernel
  obtain ⟨hsettles, hexpands⟩ := (resolution_settles_and_expands hts hn).1
  have hok : (ofDefinition grove "Grove.sol" tree).toOption.isSome := by decide +kernel
  obtain ⟨t, ht⟩ := Option.isSome_iff_exists.1 hok
  have ht := Run.toOption_eq_some_iff.1 ht
  exact ⟨hts, hn, hsettles, t, ht, (hexpands t ht).2⟩

end Grove

end ContractModel.SourceType
