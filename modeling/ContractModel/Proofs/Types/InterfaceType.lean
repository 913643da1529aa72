import ContractModel.Proofs.Types.Dimensions
import ContractModel.Types.InterfaceType
import Mathlib.Data.List.Forall2

/-! # Resolved interface parameters

What the type of an interface parameter is made of. Its source type is found by the base alone, so
it is the same for all dimensions.
-/

namespace ContractModel

namespace InterfaceParameter

/-- What a tuple consists of. -/
def parts (p : InterfaceParameter) : List InterfaceParameter := p.components.getD []

/-- Two parameters that differ at most in names, components and dimensions. -/
structure SameBases (p q : InterfaceParameter) : Prop where
  canonical : Dimensions.base? p.typeString = Dimensions.base? q.typeString
  shown : p.internalType.map Dimensions.base? = q.internalType.map Dimensions.base?

end InterfaceParameter

namespace ParameterType

open InterfaceParameter

variable {types : List SourceType} {p q : InterfaceParameter} {ps qs : List InterfaceParameter}
  {s t : ParameterType} {ss ts : List ParameterType} {base : String} {ds : List Int}

theorem withInternalType_eq_ok {abiType internalType : String}
    (h : withInternalType types (ofBase ts ds base) abiType internalType = .ok t) :
    ∃ shown, Dimensions.ofTypeString internalType = .ok (ds, shown) ∧
      t = shownAs types (ofBase ts ds base) shown := by
  obtain ⟨⟨ds', shown⟩, hshown, h⟩ := Run.except_bind_eq_ok_iff.1 h
  simp only at h
  split at h
  · next hds =>
    have hds : ds' = ds := hds
    cases h
    exact ⟨shown, hds ▸ hshown, rfl⟩
  · cases h

theorem ofInterfaceComponents_eq (types : List SourceType) (p : InterfaceParameter) :
    ofInterfaceComponents types p.components = ofInterfaceList types p.parts := by
  rw [parts]
  cases p.components with
  | none => rfl
  | some ps => rfl

/-- What a parameter's type is made of. -/
theorem ofInterface_eq_ok (h : ofInterface types p = .ok t) :
    ∃ ts ds base, ofInterfaceList types p.parts = .ok ts ∧
      Dimensions.ofTypeString p.typeString = .ok (ds, base) ∧
      ((p.internalType = none ∧ t = ofBase ts ds base) ∨
        ∃ s shown, p.internalType = some s ∧ Dimensions.ofTypeString s = .ok (ds, shown) ∧
          t = shownAs types (ofBase ts ds base) shown) := by
  have hcomponents := ofInterfaceComponents_eq types p
  obtain ⟨name, typeString, internalType, components⟩ := p
  rw [ofInterface] at h
  obtain ⟨ts, hts, h⟩ := Run.except_bind_eq_ok_iff.1 h
  obtain ⟨⟨ds, base⟩, hbase, h⟩ := Run.except_bind_eq_ok_iff.1 h
  refine ⟨ts, ds, base, hcomponents ▸ hts, hbase, ?_⟩
  cases internalType with
  | none =>
    cases h
    exact .inl ⟨rfl, rfl⟩
  | some s =>
    obtain ⟨shown, hshown, rfl⟩ := withInternalType_eq_ok h
    exact .inr ⟨s, shown, rfl, hshown, rfl⟩

theorem forall₂_of_ofInterfaceList (h : ofInterfaceList types ps = .ok ts) :
    List.Forall₂ (fun p t => ofInterface types p = .ok t) ps ts := by
  induction ps generalizing ts with
  | nil =>
    cases h
    exact .nil
  | cons p ps ih =>
    rw [ofInterfaceList] at h
    obtain ⟨t, ht, h⟩ := Run.except_bind_eq_ok_iff.1 h
    obtain ⟨ts, hts, h⟩ := Run.except_bind_eq_ok_iff.1 h
    cases h
    exact .cons ht (ih hts)

theorem isEmpty_of_ofInterfaceList (h : ofInterfaceList types ps = .ok ts) :
    ts.isEmpty = ps.isEmpty := by
  cases forall₂_of_ofInterfaceList h <;> rfl

theorem sourceType_eq_of_sameBases (hp : ofInterface types p = .ok s)
    (hq : ofInterface types q = .ok t) (h : SameBases p q) : s.sourceType = t.sourceType := by
  obtain ⟨ss, ds, base, -, hbase, hs⟩ := ofInterface_eq_ok hp
  obtain ⟨ts, ds', base', -, hbase', ht⟩ := ofInterface_eq_ok hq
  have hcanonical := h.canonical
  have hshown := h.shown
  rw [Dimensions.base?_of_eq_ok hbase, Dimensions.base?_of_eq_ok hbase'] at hcanonical
  cases hcanonical
  rcases hs with ⟨hnone, rfl⟩ | ⟨i, shown, hsome, hi, rfl⟩
  · rcases ht with ⟨-, rfl⟩ | ⟨j, shown', hsome', -, rfl⟩
    · rfl
    · rw [hnone, hsome'] at hshown
      cases hshown
  · rcases ht with ⟨hnone', rfl⟩ | ⟨j, shown', hsome', hj, rfl⟩
    · rw [hsome, hnone'] at hshown
      cases hshown
    · rw [hsome, hsome', Option.map_some, Option.map_some, Dimensions.base?_of_eq_ok hi,
        Dimensions.base?_of_eq_ok hj] at hshown
      cases hshown
      rfl

/-- Parameters with the same bases have the same source types, whatever their dimensions are. -/
theorem map_sourceType_eq_of_sameBases (hps : ofInterfaceList types ps = .ok ss)
    (hqs : ofInterfaceList types qs = .ok ts) (h : List.Forall₂ SameBases ps qs) :
    ss.map sourceType = ts.map sourceType := by
  have hss := forall₂_of_ofInterfaceList hps
  have hts := forall₂_of_ofInterfaceList hqs
  clear hps hqs
  induction h generalizing ss ts with
  | nil =>
    cases hss
    cases hts
    rfl
  | cons hpq _ ih =>
    cases hss with
    | cons hp hps =>
      cases hts with
      | cons hq hqs =>
        rw [List.map_cons, List.map_cons, sourceType_eq_of_sameBases hp hq hpq, ih hps hqs]

end ParameterType

end ContractModel
