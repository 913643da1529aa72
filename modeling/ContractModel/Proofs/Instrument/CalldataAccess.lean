import ContractModel.Proofs.Instrument.Stores

/-! # Calldata in finders

Assembly reads the offset and the length of an argument in calldata only if its length is known at
run time. A finder keeps to that except for arrays of a fixed length whose elements are strings or
bytes: it takes them for strings or bytes themselves.
-/

namespace ContractModel

namespace ParameterType

variable {t : ParameterType}

/-- The outermost type is an array of a fixed length. -/
def IsFixedArray (t : ParameterType) : Prop := ∃ d ∈ t.dimensions.head?, d ≠ -1

/-- The outermost type is an array without a fixed length, a string or bytes. -/
def HasRunTimeLength (t : ParameterType) : Prop :=
  t.dimensions.head? = some (-1) ∨ t.dimensions = [] ∧ (t.base = "string" ∨ t.base = "bytes")

/-- An array in calldata that has a fixed length, and strings or bytes for elements. -/
def IsFixedArrayOfBytes (t : ParameterType) : Prop :=
  t.isCalldata = true ∧ t.IsFixedArray ∧ (t.base = "string" ∨ t.base = "bytes")

instance : DecidablePred IsFixedArray := fun t =>
  inferInstanceAs (Decidable (∃ d ∈ t.dimensions.head?, d ≠ -1))

instance : DecidablePred HasRunTimeLength := fun t =>
  inferInstanceAs (Decidable (t.dimensions.head? = some (-1) ∨
    t.dimensions = [] ∧ (t.base = "string" ∨ t.base = "bytes")))

instance : DecidablePred IsFixedArrayOfBytes := fun t =>
  inferInstanceAs (Decidable (t.isCalldata = true ∧ t.IsFixedArray ∧
    (t.base = "string" ∨ t.base = "bytes")))

theorem not_hasRunTimeLength_of_isFixedArray (h : t.IsFixedArray) : ¬ t.HasRunTimeLength := by
  obtain ⟨d, hd, hne⟩ := h
  rintro (hdynamic | ⟨hnil, -⟩)
  · rw [hdynamic] at hd
    exact hne (Option.some.inj hd).symm
  · rw [hnil] at hd
    cases hd

theorem isDecomposed_iff :
    t.isDecomposed ↔ t.isCalldata = true ∧ t.HasRunTimeLength ∨ t.IsFixedArrayOfBytes := by
  unfold isDecomposed HasRunTimeLength IsFixedArrayOfBytes IsFixedArray
  cases hdimensions : t.dimensions with
  | nil => simp
  | cons d ds =>
    by_cases hd : d = -1
    · simp [hd]
    · simp [hd]

/-- Only the arrays of strings and bytes make a difference. -/
theorem isDecomposed_iff_hasRunTimeLength (h : ¬ t.IsFixedArrayOfBytes) :
    t.isDecomposed ↔ t.isCalldata = true ∧ t.HasRunTimeLength := by
  rw [isDecomposed_iff, or_iff_left h]

end ParameterType

namespace Finder

variable {tools : Toolchain} {id index before : Nat} {t : ParameterType} {f : ContractFunction}
  {name reading : String}

/-- The store reads a part of an argument in calldata. -/
def Logged.IsAccessor : Logged → Prop
  | offset _ | length _ => True
  | _ => False

/-- What is logged of an argument in one piece. -/
def plain (t : ParameterType) (name : String) : Logged :=
  if name = "" then .unnamed else .value t.isStorage name

/-- The stores log an argument of the name as they should: parts of it only if it is named, lies in
calldata and has a length known at run time, and the compiler has accessors; an array of a fixed
length in one piece. -/
structure ProperlyLogged (tools : Toolchain) (t : ParameterType) (name reading : String)
    (stores : List Store) : Prop where
  accessors : ∀ s ∈ stores, s.logged.IsAccessor → t.isCalldata = true ∧ name ≠ "" ∧
    Toolchain.calldataAccessors.le tools.version ∧ t.HasRunTimeLength
  fixedArray : t.IsFixedArray → ∃ flag, stores = [⟨flag, plain t reading⟩]

theorem hasCalldataAccessors_iff :
    tools.hasCalldataAccessors name ↔
      name ≠ "" ∧ Toolchain.calldataAccessors.le tools.version := by
  simp [Toolchain.hasCalldataAccessors]

theorem properlyLogged_plain {flag : Nat} :
    ProperlyLogged tools t name reading [⟨flag, plain t reading⟩] where
  accessors s hs haccessor := by
    obtain rfl := List.mem_singleton.1 hs
    unfold plain at haccessor
    split at haccessor <;> exact haccessor.elim
  fixedArray _ := ⟨flag, rfl⟩

theorem properlyLogged_of_isDecomposed {stores : List Store} (hbytes : ¬ t.IsFixedArrayOfBytes)
    (hparts : t.isDecomposed)
    (hstores : ∀ s ∈ stores, s.logged.IsAccessor → tools.hasCalldataAccessors name) :
    ProperlyLogged tools t name reading stores := by
  obtain ⟨hcalldata, hlength⟩ := (ParameterType.isDecomposed_iff_hasRunTimeLength hbytes).1 hparts
  constructor
  · intro s hs haccessor
    obtain ⟨hname, hversion⟩ := hasCalldataAccessors_iff.1 (hstores s hs haccessor)
    exact ⟨hcalldata, hname, hversion, hlength⟩
  · exact fun hfixed => absurd hlength (ParameterType.not_hasRunTimeLength_of_isFixedArray hfixed)

section Body

theorem argumentStores_of_not_isDecomposed (tools : Toolchain) (index : Nat) (reading : String)
    (h : ¬ t.isDecomposed) :
    ∃ flag, argumentStores tools index t reading = [⟨flag, plain t reading⟩] := by
  unfold argumentStores plain
  by_cases hreading : reading = ""
  · exact ⟨unnamedFlag + index, by simp [h, hreading]⟩
  · exact ⟨argumentFlag + index, by simp [h, hreading]⟩

/-- In a body an argument is logged as it should, unless it is an array of a fixed length that is
taken for strings or bytes. -/
theorem properlyLogged_argumentStores :
    ProperlyLogged tools t name (readAs id index name)
      (argumentStores tools index t (readAs id index name)) ↔ ¬ t.IsFixedArrayOfBytes := by
  constructor
  · intro hlogged hbytes
    obtain ⟨flag, hstores⟩ := hlogged.fixedArray hbytes.2.1
    unfold argumentStores plain at hstores
    rw [if_pos (ParameterType.isDecomposed_iff.2 (.inr hbytes))] at hstores
    split at hstores
    · simp at hstores
    · split at hstores <;> simp at hstores
  · intro hbytes
    by_cases hparts : t.isDecomposed
    · refine properlyLogged_of_isDecomposed hbytes hparts fun s hs haccessor => ?_
      unfold argumentStores at hs
      rw [if_pos hparts] at hs
      split at hs
      · next hreading =>
        rwa [hasCalldataAccessors_iff, ne_eq, readAs_eq_empty_iff, ← ne_eq,
          ← hasCalldataAccessors_iff] at hreading
      · obtain rfl := List.mem_singleton.1 hs
        exact haccessor.elim
    · obtain ⟨flag, hstores⟩ :=
        argumentStores_of_not_isDecomposed tools index (readAs id index name) hparts
      rw [hstores]
      exact properlyLogged_plain

end Body

section Modifier

theorem isLoggable_iff : isLoggable tools (t, name) ↔
    name ≠ "" ∧ (t.isDecomposed → tools.hasCalldataAccessors name) := by
  unfold isLoggable
  cases t.isDecomposed <;> simp

theorem isLoggable_of_lastLoggable (h : lastLoggable tools f = some ((t, name), index)) :
    isLoggable tools (t, name) :=
  (List.mem_filter.1 (List.mem_of_getLast? h)).2

/-- So it is in a modifier. -/
theorem properlyLogged_modifierStore (h : isLoggable tools (t, name)) :
    ProperlyLogged tools t name (readAs id index name)
      [modifierStore before t (readAs id index name)] ↔ ¬ t.IsFixedArrayOfBytes := by
  obtain ⟨hname, haccessors⟩ := isLoggable_iff.1 h
  have hplain : plain t (readAs id index name) = .value t.isStorage (readAs id index name) :=
    if_neg (mt readAs_eq_empty_iff.1 hname)
  constructor
  · intro hlogged hbytes
    obtain ⟨flag, hstores⟩ := hlogged.fixedArray hbytes.2.1
    rw [hplain, modifierStore, if_pos (ParameterType.isDecomposed_iff.2 (.inr hbytes))] at hstores
    simp at hstores
  · intro hbytes
    by_cases hparts : t.isDecomposed
    · exact properlyLogged_of_isDecomposed hbytes hparts fun _ _ _ => haccessors hparts
    · rw [modifierStore, if_neg hparts, ← hplain]
      exact properlyLogged_plain

end Modifier

section Finders

/-- The finders of a function write their stores. Those of an argument are as they should be exactly
for the arguments that are not arrays of a fixed length, in calldata, of strings or bytes. -/
theorem calldata_access_iff (f : ContractFunction) (id : Nat) (tools : Toolchain) :
    (∀ text, inBody f id tools = .ok text → f.arguments.length ≤ f.parameterNames.length ∧
      text = joinRenamings (copies id f) ++ assembly tools id (markers id f.arguments ++
        (named f).flatMap fun a => argumentStores tools a.2 a.1.1 (readAs id a.2 a.1.2))) ∧
    (∀ a ∈ named f, ProperlyLogged tools a.1.1 a.1.2 (readAs id a.2 a.1.2)
      (argumentStores tools a.2 a.1.1 (readAs id a.2 a.1.2)) ↔ ¬ a.1.1.IsFixedArrayOfBytes) ∧
    (∀ m, asModifier f id tools = .ok m → m.definition = modifierHead tools id f ++
      (assembly tools id (modifierStores tools id f) ++ " _; \x7d")) ∧
    ∀ t name index, lastLoggable tools f = some ((t, name), index) →
      (ProperlyLogged tools t name (readAs id index name)
        [modifierStore (symbolCount (f.arguments.take index)) t (readAs id index name)] ↔
          ¬ t.IsFixedArrayOfBytes) := by
  refine ⟨fun _ => inBody_eq_ok, ?_, fun _ => asModifier_eq_ok, ?_⟩
  · exact fun _ _ => properlyLogged_argumentStores
  · exact fun t name index h => properlyLogged_modifierStore (isLoggable_of_lastLoggable h)

/-- A compiler that has accessors. -/
def accessing : Toolchain := { (default : Toolchain) with version := ⟨0, 8, 17⟩ }

/-- A function of an argument in calldata. -/
def taking (base : String) (dimensions : List Int) (name : String) : ContractFunction :=
  { (default : ContractFunction) with
    name := "f"
    arguments := [{ ParameterType.elementary base with dimensions, isCalldata := true }]
    parameterNames := [name] }

/-- Bytes and arrays without a fixed length are read in parts, also under the name of an
instruction, an array of four numbers in one piece. -/
theorem calldata_access_three_types :
    [taking "bytes" [] "data", taking "uint256" [-1] "byte", taking "uint256" [4] "data"].map
        (fun f => (bodyArguments accessing 1 f, lastLoggable accessing f |>.isSome)) =
      [([⟨0x3000, .offset "data"⟩, ⟨0x2000, .length "data"⟩], true),
        ([⟨0x3000, .offset "certoraRename1_0"⟩, ⟨0x2000, .length "certoraRename1_0"⟩], true),
        ([⟨0x1000, .value false "data"⟩], true)] ∧
    ∀ f ∈ [taking "bytes" [] "data", taking "uint256" [-1] "byte", taking "uint256" [4] "data"],
      (∃ text, inBody f 1 accessing = .ok text) ∧ ∀ a ∈ named f,
        ProperlyLogged accessing a.1.1 a.1.2 (readAs 1 a.2 a.1.2)
          (argumentStores accessing a.2 a.1.1 (readAs 1 a.2 a.1.2)) := by
  have hrun : ∀ f ∈ [taking "bytes" [] "data", taking "uint256" [-1] "byte",
      taking "uint256" [4] "data"], (inBody f 1 accessing).toOption.isSome ∧
        ∀ a ∈ named f, ¬ a.1.1.IsFixedArrayOfBytes := by decide +kernel
  refine ⟨by decide +kernel, fun f hf => ?_⟩
  obtain ⟨hsome, hbytes⟩ := hrun f hf
  obtain ⟨text, htext⟩ := Option.isSome_iff_exists.1 hsome
  refine ⟨⟨text, Run.toOption_eq_some_iff.1 htext⟩, fun a ha => ?_⟩
  exact ((calldata_access_iff f 1 accessing).2.1 a ha).2 (hbytes a ha)

/-- Of two byte strings in calldata both finders read parts, which they do not have. -/
theorem not_properlyLogged_two_bytes :
    let f := taking "bytes" [2] "data"
    (∃ text, inBody f 1 accessing = .ok text) ∧
      bodyArguments accessing 1 f = [⟨0x3000, .offset "data"⟩, ⟨0x2000, .length "data"⟩] ∧
      (∃ m, asModifier f 1 accessing = .ok m) ∧
      (∀ a ∈ named f, a.1.1.IsFixedArray ∧
        ¬ ProperlyLogged accessing a.1.1 a.1.2 (readAs 1 a.2 a.1.2)
          (argumentStores accessing a.2 a.1.1 (readAs 1 a.2 a.1.2)) ∧
        ¬ ProperlyLogged accessing a.1.1 a.1.2 (readAs 1 a.2 a.1.2)
          [modifierStore 0 a.1.1 (readAs 1 a.2 a.1.2)]) := by
  intro f
  have hbody : (inBody f 1 accessing).toOption.isSome := by decide +kernel
  have hmodifier : (asModifier f 1 accessing).toOption.isSome := by decide +kernel
  obtain ⟨text, htext⟩ := Option.isSome_iff_exists.1 hbody
  obtain ⟨m, hm⟩ := Option.isSome_iff_exists.1 hmodifier
  have hnamed : ∀ a ∈ named f, isLoggable accessing a.1 ∧ a.1.1.IsFixedArrayOfBytes := by
    decide +kernel
  refine ⟨⟨text, Run.toOption_eq_some_iff.1 htext⟩, by decide +kernel,
    ⟨m, Run.toOption_eq_some_iff.1 hm⟩, fun a ha => ?_⟩
  obtain ⟨hloggable, hbytes⟩ := hnamed a ha
  exact ⟨hbytes.2.1, fun h => properlyLogged_argumentStores.1 h hbytes,
    fun h => (properlyLogged_modifierStore hloggable).1 h hbytes⟩

end Finders

end Finder

end ContractModel
