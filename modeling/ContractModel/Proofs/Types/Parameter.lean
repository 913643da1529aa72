import ContractModel.Proofs.Run
import ContractModel.Types.Parameter
import Mathlib.Data.List.Forall2

/-! # Resolved parameters of the tree

The source type of a parameter is the one that the base of its type name names, whatever the
dimensions are. A parameter is in storage if its declaration says so.
-/

namespace ContractModel.ParameterType

variable {ts : Trees} {root : String} {inLibrary : Bool}
  {member : List Int → Node → Except Error ParameterType} {enclosing : List Int}
  {parameter parameter' : Node} {t t' : ParameterType}

theorem typeNameOf_eq_ok_iff {n : Node} :
    typeNameOf parameter = .ok n ↔ parameter.child? "typeName" = some n := by
  unfold typeNameOf
  cases parameter.child? "typeName" with
  | none =>
    constructor
    · rintro ⟨⟩
    · rintro ⟨⟩
  | some m => rw [Except.ok.injEq, Option.some.injEq]

theorem typeStringOf_eq_ok_iff {n : Node} {s : String} :
    typeStringOf n = .ok s ↔ n.typeString? = some s := by
  unfold typeStringOf
  cases n.typeString? with
  | none =>
    constructor
    · rintro ⟨⟩
    · rintro ⟨⟩
  | some text => rw [Except.ok.injEq, Option.some.injEq]

/-- A parameter that is declared as a pointer into storage. -/
def inStorage (parameter : Node) : Bool := parameter.string? "storageLocation" == some "storage"

theorem inStorage_eq :
    inStorage parameter = ((parameter.string? "storageLocation").getD "default" == "storage") := by
  unfold inStorage
  cases parameter.string? "storageLocation" with
  | none => rfl
  | some location => rfl

/-- How the type of a parameter is read from its type name, from the base of that and from the
declaration that the base refers to, if it refers to one. -/
structure ReadFrom (ts : Trees) (root : String) (inLibrary : Bool)
    (member : List Int → Node → Except Error ParameterType) (enclosing : List Int)
    (parameter typeName base : Node) (declared : Option Declared) (t : ParameterType) : Prop where
  child : parameter.child? "typeName" = some typeName
  dimensions : Dimensions.ofNode typeName = .ok (t.dimensions, base)
  typeString : base.typeString? = some t.base
  declaration : declaredOf (ts.definition root) base = .ok declared
  sourceType : SourceType.ofTypeName ts root base = .ok t.sourceType
  components : membersOf member enclosing declared = .ok t.components
  isStorage : t.isStorage = inStorage parameter
  isTuple : t.isTuple = (declared.map (·.definition.is "StructDefinition")).getD false
  isUint8Alias : t.isUint8Alias = (declared.map (·.definition.is "EnumDefinition")).getD false
  librarySignature : t.librarySignature =
    if inLibrary then librarySignatureOf base t.base declared else none

theorem readFrom_of_ofParameterWith
    (h : ofParameterWith ts root inLibrary member enclosing parameter = .ok t) :
    ∃ typeName base declared,
      ReadFrom ts root inLibrary member enclosing parameter typeName base declared t := by
  obtain ⟨typeName, hname, h⟩ := Run.except_bind_eq_ok_iff.1 h
  obtain ⟨⟨ds, base⟩, hbase, h⟩ := Run.except_bind_eq_ok_iff.1 h
  obtain ⟨typeString, htext, h⟩ := Run.except_bind_eq_ok_iff.1 h
  obtain ⟨declared, hdeclared, h⟩ := Run.except_bind_eq_ok_iff.1 h
  obtain ⟨sourceType, hsource, h⟩ := Run.except_bind_eq_ok_iff.1 h
  obtain ⟨components, hcomponents, h⟩ := Run.except_bind_eq_ok_iff.1 h
  cases h
  exact ⟨typeName, base, declared, typeNameOf_eq_ok_iff.1 hname, hbase,
    typeStringOf_eq_ok_iff.1 htext, hdeclared, hsource, hcomponents, inStorage_eq.symm, rfl, rfl,
    rfl⟩

theorem ofParameter_eq_ok (h : ofParameter ts root inLibrary parameter = .ok t) :
    ∃ typeName base, parameter.child? "typeName" = some typeName ∧
      Dimensions.ofNode typeName = .ok (t.dimensions, base) ∧
      SourceType.ofTypeName ts root base = .ok t.sourceType ∧
      t.isStorage = inStorage parameter ∧ base.typeString? = some t.base := by
  unfold ofParameter at h
  cases hsteps : SourceType.chainBound ts root with
  | zero =>
    rw [hsteps] at h
    cases h
  | succ steps =>
    rw [hsteps] at h
    obtain ⟨typeName, base, _, hread⟩ := readFrom_of_ofParameterWith h
    exact ⟨typeName, base, hread.child, hread.dimensions, hread.sourceType, hread.isStorage,
      hread.typeString⟩

/-- The base of the type name of a parameter. -/
def base? (parameter : Node) : Option Node :=
  (parameter.child? "typeName").bind fun n => (Dimensions.ofNode n).toOption.map Prod.snd

theorem sourceType_eq_of_base? (h : ofParameter ts root inLibrary parameter = .ok t)
    (h' : ofParameter ts root inLibrary parameter' = .ok t')
    (hbase : base? parameter = base? parameter') : t.sourceType = t'.sourceType := by
  obtain ⟨typeName, base, hname, hdimensions, hsource, -⟩ := ofParameter_eq_ok h
  obtain ⟨typeName', base', hname', hdimensions', hsource', -⟩ := ofParameter_eq_ok h'
  rw [base?, base?, hname, hname', Option.bind_some, Option.bind_some, hdimensions,
    hdimensions'] at hbase
  cases hbase
  rw [hsource] at hsource'
  exact Except.ok.inj hsource'

/-- Parameters with the same bases have the same source types, whatever their dimensions are. -/
theorem map_sourceType_eq_of_base? {ns ms : List Node} {ss us : List ParameterType}
    (hns : List.Forall₂ (fun n t => ofParameter ts root inLibrary n = .ok t) ns ss)
    (hms : List.Forall₂ (fun n t => ofParameter ts root inLibrary n = .ok t) ms us)
    (hbases : ns.map base? = ms.map base?) : ss.map sourceType = us.map sourceType := by
  induction hns generalizing ms us with
  | nil =>
    cases hms with
    | nil => rfl
    | cons _ _ => cases hbases
  | cons hn _ ih =>
    cases hms with
    | nil => cases hbases
    | cons hm hms =>
      obtain ⟨hbase, hbases⟩ := List.cons.inj hbases
      rw [List.map_cons, List.map_cons, sourceType_eq_of_base? hn hm hbase, ih hms hbases]

end ContractModel.ParameterType
