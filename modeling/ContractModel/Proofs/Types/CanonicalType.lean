import ContractModel.Proofs.Text.Commas
import ContractModel.Proofs.Types.InterfaceType

/-! # Canonical types of interface parameters

The signature of a parameter's type is the canonical type exactly when no name of the source shows
in it: it shows in a parameter, or in one inside a tuple, that is no tuple, number of an enumeration
or address but has an internal type with another base.
-/

namespace ContractModel

namespace InterfaceParameter

/-- What holds of a parameter and of all parts inside it. -/
inductive Everywhere (P : InterfaceParameter → Prop) : InterfaceParameter → Prop
  | intro {p : InterfaceParameter} (here : P p) (inside : ∀ q ∈ p.parts, Everywhere P q) :
    Everywhere P p

theorem everywhere_iff {P : InterfaceParameter → Prop} {p : InterfaceParameter} :
    Everywhere P p ↔ P p ∧ ∀ q ∈ p.parts, Everywhere P q := by
  constructor
  · rintro ⟨here, inside⟩
    exact ⟨here, inside⟩
  · rintro ⟨here, inside⟩
    exact ⟨here, inside⟩

mutual

/-- The type with the canonical types of the parts in the place of `tuple`. -/
def canonicalType : InterfaceParameter → String
  | ⟨_, typeString, _, components⟩ =>
    match canonicalComponents components with
    | [] => typeString
    | types => "(" ++ String.intercalate "," types ++ ")" ++
        (Text.afterPrefix? "tuple" typeString).getD ""

def canonicalComponents : Option (List InterfaceParameter) → List String
  | none => []
  | some ps => canonicalTypes ps

def canonicalTypes : List InterfaceParameter → List String
  | [] => []
  | p :: ps => canonicalType p :: canonicalTypes ps

end

theorem canonicalTypes_eq (ps : List InterfaceParameter) :
    canonicalTypes ps = ps.map canonicalType := by
  induction ps with
  | nil => rfl
  | cons p ps ih => rw [canonicalTypes, ih, List.map_cons]

theorem canonicalComponents_eq (p : InterfaceParameter) :
    canonicalComponents p.components = p.parts.map canonicalType := by
  rw [parts]
  cases p.components with
  | none => rfl
  | some ps => exact canonicalTypes_eq ps

theorem canonicalType_of_parts_eq_nil {p : InterfaceParameter} (h : p.parts = []) :
    p.canonicalType = p.typeString := by
  have hcomponents := canonicalComponents_eq p
  rw [h, List.map_nil] at hcomponents
  obtain ⟨name, typeString, internalType, components⟩ := p
  rw [canonicalType, hcomponents]

theorem canonicalType_of_parts_ne_nil {p : InterfaceParameter} (h : p.parts ≠ []) :
    p.canonicalType = "(" ++ String.intercalate "," (p.parts.map canonicalType) ++ ")" ++
      (Text.afterPrefix? "tuple" p.typeString).getD "" := by
  have hcomponents := canonicalComponents_eq p
  cases hparts : p.parts with
  | nil => exact absurd hparts h
  | cons q qs =>
    rw [hparts, List.map_cons] at hcomponents
    obtain ⟨name, typeString, internalType, components⟩ := p
    rw [canonicalType, hcomponents, List.map_cons]

/-- The type is a base and dimensions as the compiler writes them; the base is `tuple` exactly if
there are parts. -/
structure WrittenAs (p : InterfaceParameter) (base : String) (ds : List Int) : Prop where
  text : p.typeString = base ++ ParameterType.dimensionsText ds
  lengths : Dimensions.Lengths ds
  endsInBase : Dimensions.EndsInBase base
  noComma : ',' ∉ base.toList
  tuple_iff : base = "tuple" ↔ p.parts ≠ []

def WellWritten (p : InterfaceParameter) : Prop := ∃ base ds, p.WrittenAs base ds

/-- What the source calls the base does not show in the signature. -/
def HidesName (p : InterfaceParameter) : Prop :=
  ∀ s ∈ p.internalType, p.parts ≠ [] ∨ Dimensions.base? p.typeString = some "uint8" ∨
    Dimensions.base? p.typeString = some "address" ∨
    Dimensions.base? s = Dimensions.base? p.typeString

end InterfaceParameter

namespace ParameterType

open InterfaceParameter Text

theorem signatures_eq (ts : List ParameterType) : signatures ts = ts.map signature := by
  induction ts with
  | nil => rfl
  | cons t ts ih => rw [signatures, ih, List.map_cons]

variable {types : List SourceType} {p : InterfaceParameter} {ps : List InterfaceParameter}
  {t : ParameterType} {ts : List ParameterType} {base shown : String} {ds : List Int}

/-- The canonical type of a tuple. -/
def tupleText (ts : List ParameterType) : String :=
  "(" ++ String.intercalate "," (ts.map signature) ++ ")"

theorem signature_ofBase (ts : List ParameterType) (ds : List Int) (base : String) :
    (ofBase ts ds base).signature =
      (if ts.isEmpty then base else tupleText ts) ++ dimensionsText ds := by
  cases ts <;> simp [ofBase, elementary, signature, tupleText, signatures_eq]

theorem signature_shownAs (types : List SourceType) (ts : List ParameterType) (ds : List Int)
    (base shown : String) :
    (shownAs types (ofBase ts ds base) shown).signature =
      (if base = "uint8" ∧ shown ≠ base then "uint8"
        else if ts.isEmpty then if base = "address" ∧ shown ≠ base then "address" else shown
        else tupleText ts) ++ dimensionsText ds := by
  cases ts <;> simp [shownAs, ofBase, elementary, signature, tupleText, signatures_eq]

theorem base_of_writtenAs {base' : String} {ds' : List Int} (hw : p.WrittenAs base ds)
    (h : Dimensions.ofTypeString p.typeString = .ok (ds', base')) : ds' = ds ∧ base' = base := by
  rw [hw.text] at h
  obtain ⟨-, heq⟩ := (Dimensions.ofTypeString_append_iff hw.lengths hw.endsInBase).1 h
  exact Prod.mk.inj heq

theorem signature_of_tuple (hw : p.WrittenAs base ds) (hparts : p.parts ≠ [])
    (h : ofInterface types p = .ok t) :
    ∃ ts, ofInterfaceList types p.parts = .ok ts ∧
      t.signature = tupleText ts ++ dimensionsText ds := by
  obtain ⟨ts, ds', base', hts, hbase, hshown⟩ := ofInterface_eq_ok h
  obtain ⟨rfl, rfl⟩ := base_of_writtenAs hw hbase
  have htuple : base' = "tuple" := hw.tuple_iff.2 hparts
  have hempty : ts.isEmpty = false := by
    rw [isEmpty_of_ofInterfaceList hts, List.isEmpty_eq_false_iff]
    exact hparts
  refine ⟨ts, hts, ?_⟩
  rcases hshown with ⟨-, rfl⟩ | ⟨s, shown, -, -, rfl⟩
  · simp [signature_ofBase, hempty]
  · simp [signature_shownAs, hempty, htuple]

/-- Without parts the base is what the source calls it, unless that is hidden. -/
theorem signature_of_base (hw : p.WrittenAs base ds) (hparts : p.parts = [])
    (h : ofInterface types p = .ok t) :
    ∃ front, t.signature = front ++ dimensionsText ds ∧ (front = base ↔ p.HidesName) := by
  obtain ⟨ts, ds', base', hts, hbase, hshown⟩ := ofInterface_eq_ok h
  have hempty : ts.isEmpty = true := by
    rw [isEmpty_of_ofInterfaceList hts, hparts]
    rfl
  have hbaseOf : Dimensions.base? p.typeString = some base' := Dimensions.base?_of_eq_ok hbase
  obtain ⟨rfl, rfl⟩ := base_of_writtenAs hw hbase
  rcases hshown with ⟨hnone, rfl⟩ | ⟨s, shown, hsome, hs, rfl⟩
  · refine ⟨base', by simp [signature_ofBase, hempty], ?_⟩
    simp [HidesName, hnone]
  · have hshownOf : Dimensions.base? s = some shown := Dimensions.base?_of_eq_ok hs
    refine ⟨_, signature_shownAs types ts ds' base' shown, ?_⟩
    simp only [hempty, if_true, HidesName, hsome, Option.mem_some_iff, forall_eq', hparts,
      ne_eq, not_true_eq_false, false_or, hbaseOf, hshownOf, Option.some.injEq]
    grind

theorem canonicalType_of_tuple (hw : p.WrittenAs base ds) (hparts : p.parts ≠ []) :
    p.canonicalType =
      "(" ++ String.intercalate "," (p.parts.map canonicalType) ++ ")" ++ dimensionsText ds := by
  rw [canonicalType_of_parts_ne_nil hparts, hw.text, hw.tuple_iff.2 hparts,
    Text.afterPrefix?_append, Option.getD_some]

theorem forall₂_map {f : InterfaceParameter → String} {g : ParameterType → String}
    {R : String → String → Prop} (hps : ofInterfaceList types ps = .ok ts)
    (h : ∀ p ∈ ps, ∀ {t}, ofInterface types p = .ok t → R (f p) (g t)) :
    List.Forall₂ R (ps.map f) (ts.map g) := by
  rw [List.forall₂_map_left_iff, List.forall₂_map_right_iff]
  have hall := (List.forall₂_and_left _ _).2 ⟨h, forall₂_of_ofInterfaceList hps⟩
  exact hall.imp fun p t hpt => hpt.1 hpt.2

/-- Names of the source only add commas. -/
theorem commas_canonicalType_le (hp : Everywhere WellWritten p)
    (h : ofInterface types p = .ok t) : commas p.canonicalType ≤ commas t.signature := by
  induction hp generalizing t with
  | @intro p here inside ih =>
    obtain ⟨base, ds, hw⟩ := here
    by_cases hparts : p.parts = []
    · obtain ⟨front, hfront, -⟩ := signature_of_base hw hparts h
      have hbase : commas base = 0 := List.count_eq_zero.2 hw.noComma
      rw [canonicalType_of_parts_eq_nil hparts, hw.text, hfront, commas_append, commas_append]
      omega
    · obtain ⟨ts, hts, hsignature⟩ := signature_of_tuple hw hparts h
      have hle : commas (String.intercalate "," (p.parts.map canonicalType)) ≤
          commas (String.intercalate "," (ts.map signature)) :=
        commas_intercalate_le (forall₂_map hts fun q hq _ hqt => ih q hq hqt)
      simp only [canonicalType_of_tuple hw hparts, hsignature, tupleText, commas_append]
      omega

theorem map_signature_eq_iff {P : InterfaceParameter → Prop}
    (h : List.Forall₂ (fun p t => signature t = p.canonicalType ↔ P p) ps ts) :
    ts.map signature = ps.map canonicalType ↔ ∀ p ∈ ps, P p := by
  induction h with
  | nil => simp
  | cons hpt hrest ih => simp [hpt, ih]

/-- A signature is the canonical type exactly when it hides all names of the source. -/
theorem signature_eq_canonicalType_iff (hp : Everywhere WellWritten p)
    (h : ofInterface types p = .ok t) :
    t.signature = p.canonicalType ↔ Everywhere HidesName p := by
  induction hp generalizing t with
  | @intro p here inside ih =>
    obtain ⟨base, ds, hw⟩ := here
    rw [everywhere_iff]
    by_cases hparts : p.parts = []
    · obtain ⟨front, hfront, hhides⟩ := signature_of_base hw hparts h
      rw [canonicalType_of_parts_eq_nil hparts, hw.text, hfront, String.append_left_inj, hhides,
        hparts]
      simp
    · obtain ⟨ts, hts, hsignature⟩ := signature_of_tuple hw hparts h
      have hhides : p.HidesName := fun _ _ => .inl hparts
      have hparts' := (List.forall₂_and_left _ _).2 ⟨ih, forall₂_of_ofInterfaceList hts⟩
      have hcommas : List.Forall₂ (fun s t => commas s ≤ commas t) (p.parts.map canonicalType)
          (ts.map signature) :=
        forall₂_map hts fun q hq _ hqt => commas_canonicalType_le (inside q hq) hqt
      rw [canonicalType_of_tuple hw hparts, hsignature, tupleText, String.append_left_inj,
        String.append_left_inj, String.append_right_inj,
        ← map_signature_eq_iff (hparts'.imp fun q t hqt => hqt.1 hqt.2)]
      constructor
      · intro heq
        exact ⟨hhides, (intercalate_injective hcommas heq.symm).symm⟩
      · rintro ⟨-, heq⟩
        rw [heq]

/-- Positions of an owner and states. -/
def positions : InterfaceParameter where
  name := "positions"
  typeString := "tuple[3][]"
  internalType := some "struct Pool.Position[3][]"
  components := some [⟨"owner", "address", some "contract Owner", none⟩,
    ⟨"states", "uint8[]", some "enum Pool.State[]", none⟩]

/-- Contracts and enumerations inside a tuple do not show. -/
theorem signature_positions : ∃ t, ofInterface [] positions = .ok t ∧
    t.signature = positions.canonicalType := by
  cases ht : ofInterface [] positions with
  | error e =>
    have hok : (ofInterface [] positions).isOk := by decide +kernel
    rw [ht] at hok
    cases hok
  | ok t =>
    have hwritten : Everywhere WellWritten positions := by
      refine ⟨⟨"tuple", [-1, 3], by decide +kernel, by decide, by decide, by decide, by decide⟩, ?_⟩
      rintro q (_ | ⟨_, _ | ⟨_, ⟨⟩⟩⟩)
      · exact ⟨⟨"address", [], rfl, by decide, by decide, by decide, by decide⟩, by rintro _ ⟨⟩⟩
      · exact ⟨⟨"uint8", [-1], rfl, by decide, by decide, by decide, by decide⟩, by rintro _ ⟨⟩⟩
    have hhides : Everywhere HidesName positions := by
      refine ⟨fun _ _ => .inl (List.cons_ne_nil _ _), ?_⟩
      rintro q (_ | ⟨_, _ | ⟨_, ⟨⟩⟩⟩)
      · exact ⟨fun _ _ => .inr (.inr (.inl (by decide +kernel))), by rintro _ ⟨⟩⟩
      · exact ⟨fun _ _ => .inr (.inl (by decide +kernel)), by rintro _ ⟨⟩⟩
    exact ⟨t, rfl, (signature_eq_canonicalType_iff hwritten ht).2 hhides⟩

/-- A value of a declared type that wraps `uint256`. -/
def price : InterfaceParameter := ⟨"price", "uint256", some "Price", none⟩

/-- The declared type shows. -/
theorem signature_price : Everywhere WellWritten price ∧
    ∃ t, ofInterface [] price = .ok t ∧ t.signature ≠ price.canonicalType := by
  have hsignature : (ofInterface [] price).toOption.map signature = some "Price" := by
    decide +kernel
  cases ht : ofInterface [] price with
  | error e =>
    rw [ht] at hsignature
    cases hsignature
  | ok t =>
    rw [ht] at hsignature
    refine ⟨⟨⟨"uint256", [], rfl, by decide, by decide, by decide, by decide⟩, ?_⟩, t, rfl, ?_⟩
    · rintro q ⟨⟩
    · rw [Option.some.inj hsignature]
      decide

end ParameterType

end ContractModel
