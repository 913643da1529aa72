import ContractModel.Proofs.Instrument.CalldataAccess
import ContractModel.Proofs.Instrument.Keys
import Mathlib.Data.Nat.Digits.Lemmas

/-! # Layouts of arguments

A modifier logs the layout of the arguments as a number of fields of two bits: `01` for an argument
in one piece, `11` and `10` for an offset and a length. The number has as many fields as the
arguments have symbols, since no field is zero, and can be read from its lowest field on: the field
tells whether the last argument is decomposed, and thereby where the field of the one before stands.
-/

namespace ContractModel.Finder

variable {n : Nat} {ts us : List ParameterType} {parts : List Bool} {ds : List Nat}

section Fields

/-- The fields of an argument, the lowest first. -/
def fields (decomposed : Bool) : List Nat := if decomposed then [2, 3] else [1]

/-- The layout of arguments, given which of them are decomposed. -/
def layoutOf (parts : List Bool) : Nat :=
  parts.foldl (fun n decomposed => if decomposed then n * 16 + 14 else n * 4 + 1) 0

theorem typeLayout_eq (ts : List ParameterType) :
    typeLayout ts = layoutOf (ts.map ParameterType.isDecomposed) := by
  rw [layoutOf, List.foldl_map, typeLayout]

theorem layoutOf_append_singleton (parts : List Bool) (decomposed : Bool) :
    layoutOf (parts ++ [decomposed]) =
      if decomposed then layoutOf parts * 16 + 14 else layoutOf parts * 4 + 1 := by
  rw [layoutOf, List.foldl_append]
  rfl

/-- The fields of an argument are put below those of the arguments in front of it. -/
theorem digits_layoutOf_append_singleton (parts : List Bool) (decomposed : Bool) :
    Nat.digits 4 (layoutOf (parts ++ [decomposed])) =
      fields decomposed ++ Nat.digits 4 (layoutOf parts) := by
  -- A field that is not zero does not vanish, even if it is the highest.
  have hfield (d n : Nat) (hd : d ≠ 0) (hlt : d < 4) :
      Nat.digits 4 (d + 4 * n) = d :: Nat.digits 4 n :=
    Nat.digits_add 4 (by decide) d n hlt (.inl hd)
  rw [layoutOf_append_singleton]
  cases decomposed with
  | false =>
    have hlow : layoutOf parts * 4 + 1 = 1 + 4 * layoutOf parts := by omega
    rw [if_neg Bool.false_ne_true, hlow, hfield 1 _ (by decide) (by decide)]
    rfl
  | true =>
    have hlow : layoutOf parts * 16 + 14 = 2 + 4 * (3 + 4 * layoutOf parts) := by omega
    rw [if_pos rfl, hlow, hfield 2 _ (by decide) (by decide), hfield 3 _ (by decide) (by decide)]
    rfl

/-- A layout consists of the fields of the arguments, with those of the last one lowest. -/
theorem digits_layoutOf (parts : List Bool) :
    Nat.digits 4 (layoutOf parts) = parts.reverse.flatMap fields := by
  induction parts using List.reverseRecOn with
  | nil => exact Nat.digits_zero 4
  | append_singleton parts decomposed ih =>
    rw [digits_layoutOf_append_singleton, ih, List.reverse_append, List.reverse_singleton,
      List.singleton_append, List.flatMap_cons]

theorem length_flatMap_fields (parts : List Bool) :
    (parts.flatMap fields).length = parts.length + parts.count true := by
  induction parts with
  | nil => rfl
  | cons decomposed parts ih =>
    rw [List.flatMap_cons, List.length_append, ih, List.length_cons, List.count_cons]
    cases decomposed <;> simp [fields] <;> omega

/-- A layout has a field for each symbol. -/
theorem length_digits_typeLayout (ts : List ParameterType) :
    (Nat.digits 4 (typeLayout ts)).length = symbolCount ts := by
  rw [typeLayout_eq, digits_layoutOf, length_flatMap_fields, List.length_reverse, List.length_map,
    List.count_reverse, symbolCount, List.count, List.countP_map]
  congr 2
  funext t
  exact beq_true _

/-- So it fits into as many fields as there are symbols. -/
theorem typeLayout_lt_iff {k : Nat} : typeLayout ts < 4 ^ k ↔ symbolCount ts ≤ k := by
  rw [← Nat.digits_length_le_iff (by decide), length_digits_typeLayout]

end Fields

section Reading

/-- Which arguments are decomposed, from the last on, by the fields from the lowest on. -/
def readFields : List Nat → Option (List Bool)
  | [] => some []
  | 1 :: ds => (readFields ds).map (false :: ·)
  | 2 :: 3 :: ds => (readFields ds).map (true :: ·)
  | _ => none

theorem readFields_flatMap (parts : List Bool) :
    readFields (parts.flatMap fields) = some parts := by
  induction parts with
  | nil => rfl
  | cons decomposed parts ih =>
    rw [List.flatMap_cons]
    cases decomposed with
    | false => exact congrArg (Option.map (false :: ·)) ih
    | true => exact congrArg (Option.map (true :: ·)) ih

/-- Nothing but fields of arguments is accepted. -/
theorem eq_flatMap_of_readFields (h : readFields ds = some parts) : ds = parts.flatMap fields := by
  fun_induction readFields ds generalizing parts with
  | case1 =>
    cases h
    rfl
  | case2 ds ih =>
    obtain ⟨rest, hrest, rfl⟩ := Option.map_eq_some_iff.1 h
    exact congrArg (1 :: ·) (ih hrest)
  | case3 ds ih =>
    obtain ⟨rest, hrest, rfl⟩ := Option.map_eq_some_iff.1 h
    exact congrArg (2 :: 3 :: ·) (ih hrest)
  | case4 => cases h

theorem readFields_eq_some_iff : readFields ds = some parts ↔ ds = parts.flatMap fields :=
  ⟨eq_flatMap_of_readFields, fun h => h ▸ readFields_flatMap parts⟩

/-- Which of the arguments are decomposed, by their layout. -/
def readLayout (n : Nat) : Option (List Bool) := (readFields (Nat.digits 4 n)).map List.reverse

/-- The layouts are what is read, and each of them is read as what it is made of. -/
theorem readLayout_eq_some_iff : readLayout n = some parts ↔ layoutOf parts = n := by
  have hreverse : readLayout n = some parts ↔ readFields (Nat.digits 4 n) = some parts.reverse := by
    rw [readLayout, Option.map_eq_some_iff]
    constructor
    · rintro ⟨reversed, hread, rfl⟩
      rwa [List.reverse_reverse]
    · exact fun hread => ⟨parts.reverse, hread, List.reverse_reverse parts⟩
  rw [hreverse, readFields_eq_some_iff, ← digits_layoutOf, Nat.digits_inj_iff, eq_comm]

theorem readLayout_typeLayout (ts : List ParameterType) :
    readLayout (typeLayout ts) = some (ts.map ParameterType.isDecomposed) :=
  readLayout_eq_some_iff.2 (typeLayout_eq ts).symm

/-- Bytes, which are decomposed if they are in calldata. -/
def bytes (isCalldata : Bool) : ParameterType :=
  { ParameterType.elementary "bytes" with isCalldata }

theorem isDecomposed_bytes : ParameterType.isDecomposed ∘ bytes = id := by
  funext isCalldata
  cases isCalldata <;> rfl

/-- Arguments can be decomposed at any positions. -/
theorem exists_map_isDecomposed (parts : List Bool) :
    ∃ ts : List ParameterType, ts.map ParameterType.isDecomposed = parts := by
  refine ⟨parts.map bytes, ?_⟩
  rw [List.map_map, isDecomposed_bytes, List.map_id]

theorem typeLayout_eq_iff_map :
    typeLayout ts = typeLayout us ↔
      ts.map ParameterType.isDecomposed = us.map ParameterType.isDecomposed := by
  rw [typeLayout_eq us, eq_comm, ← readLayout_eq_some_iff, readLayout_typeLayout, Option.some.injEq]

/-- Lists tell the same if they have one length and are decomposed at the same positions. -/
theorem map_isDecomposed_eq_iff :
    ts.map ParameterType.isDecomposed = us.map ParameterType.isDecomposed ↔
      ts.length = us.length ∧
        ∀ i : Nat, ts[i]?.any ParameterType.isDecomposed = us[i]?.any ParameterType.isDecomposed := by
  constructor
  · intro h
    refine ⟨by simpa using congrArg List.length h, fun i => ?_⟩
    have hi := congrArg (fun parts : List Bool => parts[i]?.any id) h
    simpa only [List.getElem?_map, Option.any_map, id_eq] using hi
  · rintro ⟨hlength, hany⟩
    refine List.ext_getElem (by simpa using hlength) fun i hi hi' => ?_
    rw [List.getElem_map, List.getElem_map]
    rw [List.length_map] at hi hi'
    have h := hany i
    rwa [List.getElem?_eq_getElem hi, List.getElem?_eq_getElem hi', Option.any_some,
      Option.any_some] at h

end Reading

section Modifiers

/-- A layout is logged under one of two flags, which tell whether the modifier logs an argument. -/
def Store.isLayout (s : Store) : Bool := s.flag == 2 || s.flag == 3

theorem isLayout_modifierStore (before : Nat) (t : ParameterType) (name : String) :
    (modifierStore before t name).isLayout = false := by
  have hflag := flag_modifierStore before t name
  simp only [Store.isLayout, Bool.or_eq_false_iff, beq_eq_false_iff_ne]
  omega

/-- A modifier logs one layout, that of all arguments. -/
theorem filter_isLayout_modifierStores (tools : Toolchain) (id : Nat) (f : ContractFunction) :
    ∃ flag, (modifierStores tools id f).filter Store.isLayout =
      [⟨flag, .number (typeLayout f.arguments)⟩] := by
  have hmarkers : (markers id f.arguments).filter Store.isLayout = [] := rfl
  rw [modifierStores, List.filter_append, hmarkers, List.nil_append]
  split
  · exact ⟨2, rfl⟩
  · next t name index _ =>
    refine ⟨3, ?_⟩
    rw [List.filter_cons_of_pos rfl, List.filter_cons, isLayout_modifierStore]
    rfl

/-- Which of the arguments are decomposed, by the text of a logged layout. -/
def readLogged (text : String) : Option (List Bool) :=
  (Text.readNumeral 10 text.toList).bind readLayout

theorem readLogged_decimal (n : Nat) : readLogged (Text.decimal n) = readLayout n := by
  have hread : Text.readNumeral 10 (Text.decimal n).toList = some n := by
    rw [Text.decimal, String.toList_ofList, Text.readNumeral_eq_some_iff]
    exact ⟨Text.digits_ne_nil 10 n, Text.readDigits_digits (by decide) (by decide) n⟩
  rw [readLogged, hread, Option.bind_some]

/-- Layouts agree exactly for lists of one length that are decomposed at the same positions. They
are read back, nothing else is accepted as a layout, and one fits into as many fields as the
arguments have symbols. A modifier writes one store with the flag of a layout, and its text tells
which of the function's arguments are decomposed. -/
theorem layouts_uniquelyDecodable :
    (∀ ts us : List ParameterType, typeLayout ts = typeLayout us ↔
      ts.length = us.length ∧
        ∀ i : Nat, ts[i]?.any ParameterType.isDecomposed =
          us[i]?.any ParameterType.isDecomposed) ∧
    (∀ n parts, readLayout n = some parts ↔
      ∃ ts : List ParameterType, typeLayout ts = n ∧ ts.map ParameterType.isDecomposed = parts) ∧
    (∀ (ts : List ParameterType) (k : Nat), typeLayout ts < 4 ^ k ↔ symbolCount ts ≤ k) ∧
    ∀ (f : ContractFunction) (id : Nat) (tools : Toolchain),
      (∃ s, (modifierStores tools id f).filter Store.isLayout = [s] ∧
        readLogged (s.logged.text tools) = some (f.arguments.map ParameterType.isDecomposed)) ∧
      ∀ m, asModifier f id tools = .ok m → m.definition = modifierHead tools id f ++
        (assembly tools id (modifierStores tools id f) ++ " _; \x7d") := by
  refine ⟨fun ts us => ?_, fun n parts => ?_, fun ts k => typeLayout_lt_iff, fun f id tools => ?_⟩
  · rw [typeLayout_eq_iff_map, map_isDecomposed_eq_iff]
  · constructor
    · intro h
      obtain ⟨ts, rfl⟩ := exists_map_isDecomposed parts
      exact ⟨ts, (typeLayout_eq ts).trans (readLayout_eq_some_iff.1 h), rfl⟩
    · rintro ⟨ts, rfl, rfl⟩
      exact readLayout_typeLayout ts
  · obtain ⟨flag, hfilter⟩ := filter_isLayout_modifierStores tools id f
    refine ⟨⟨_, hfilter, ?_⟩, fun m => asModifier_eq_ok⟩
    exact (readLogged_decimal _).trans (readLayout_typeLayout f.arguments)

/-- A function of three arguments, of which only the second has a name. -/
def partlyNamed : ContractFunction :=
  { (default : ContractFunction) with
    name := "f"
    arguments := [.elementary "uint256", bytes true, bytes true]
    parameterNames := ["", "data", ""] }

/-- Two arguments of three are decomposed, and the layout tells which. -/
theorem layouts_uniquelyDecodable_two_of_three :
    (∃ m, asModifier partlyNamed 1 accessing = .ok m ∧
      m.definition = modifierHead accessing 1 partlyNamed ++
        (assembly accessing 1 (modifierStores accessing 1 partlyNamed) ++ " _; \x7d")) ∧
    modifierStores accessing 1 partlyNamed =
      [⟨0, .number 0xf196e50001⟩, ⟨1, .number 5⟩, ⟨3, .number 0b0111101110⟩,
        ⟨0x6101, .offset "data"⟩] ∧
    readLayout 0b0111101110 = some [false, true, true] ∧
    typeLayout partlyNamed.arguments ≠ typeLayout [bytes true, bytes false, bytes true] := by
  obtain ⟨hequal, hread, -, hmodifier⟩ := layouts_uniquelyDecodable
  have hsome : (asModifier partlyNamed 1 accessing).toOption.isSome := by decide +kernel
  obtain ⟨m, hm⟩ := Option.isSome_iff_exists.1 hsome
  have hm := Run.toOption_eq_some_iff.1 hm
  refine ⟨⟨m, hm, (hmodifier partlyNamed 1 accessing).2 m hm⟩, by decide +kernel, ?_, fun h => ?_⟩
  · exact (hread _ _).2 ⟨partlyNamed.arguments, by decide, by decide⟩
  · exact absurd (((hequal _ _).1 h).2 0) (by decide)

end Modifiers

end ContractModel.Finder
