import ContractModel.Config
import ContractModel.Proofs.Json.Codecs

/-! # Reading written configurations

A configuration is read again from what it is written as. Nothing in it is nested deeply or a number
other than of the optimizer's runs, however large the value is that it was read from.
-/

namespace ContractModel.Config

open Json Json.Schema

variable {α : Type} {read : Written → Option α} {write : α → Json}

theorem readable_no_entries {d : Nat} :
    ∃ w, Schema.map read w = some ∅ ∧ w.Within (d + 1) :=
  ⟨.object [], rfl, .object fun _ h => nomatch h⟩

theorem codec_strings : Codec (list Written.asString?) (list Written.asString?) ofStrings 1 :=
  codec_string.list.mono (Nat.zero_le 1)

theorem codec_stringMap :
    Codec (map Written.asString?) (map Written.asString?) (ofMap .string) 1 :=
  codec_string.map.mono (Nat.zero_le 1)

theorem readable_false : ∃ w, Written.asBool? w = some false ∧ w.Within 0 :=
  ⟨.bool false, rfl, .bool⟩

def fields : List (RecordField Config) :=
  [⟨files, codec_strings.defaulted "files" readable_nil⟩,
    ⟨fileToContract, codec_strings.map.defaulted "fileToContract" readable_no_entries⟩,
    ⟨contractToFile, codec_stringMap.defaulted "contractToFile" readable_no_entries⟩,
    ⟨compiler, codec_string.orNull "solc"⟩,
    ⟨compilerMap, codec_stringMap.defaulted "solcMap" readable_no_entries⟩,
    ⟨compilerArguments, codec_string.orNull "solcArgs"⟩,
    ⟨optimizeMap,
      (codec_word.map.mono (Nat.zero_le 1)).defaulted "optimizeMap" readable_no_entries⟩,
    ⟨packages, codec_strings.defaulted "packages" readable_nil⟩,
    ⟨path, codec_strings.defaulted "path" readable_nil⟩,
    ⟨link, codec_strings.defaulted "link" readable_nil⟩,
    ⟨structLink, codec_strings.defaulted "structLink" readable_nil⟩,
    ⟨address, codec_stringMap.defaulted "address" readable_no_entries⟩,
    ⟨finders, codec_string.orNull "functionFinders"⟩,
    ⟨prototype, codec_strings.defaulted "prototype" readable_nil⟩,
    ⟨method, codec_string.orNull "method"⟩,
    ⟨verify, codec_string.orNull "verify"⟩,
    ⟨assertContracts, codec_strings.defaulted "assertContracts" readable_nil⟩,
    ⟨viaIR, codec_bool.defaulted "viaIr" readable_false⟩,
    ⟨evmVersion, codec_string.orNull "evmVersion"⟩,
    ⟨optimize, codec_word.orNull "optimize"⟩,
    ⟨debug, codec_bool.defaulted "debug" readable_false⟩,
    ⟨assertFinders, codec_bool.defaulted "assertAutofinderSuccess" readable_false⟩,
    ⟨configDir, codec_string.defaulted "configDir" ⟨.string ".certora_config", rfl, .string⟩⟩]

/-- Four readings in a row. -/
theorem bind₄_eq_some_iff {α₁ α₂ α₃ α₄ β : Type} {x₁ : Option α₁} {x₂ : Option α₂} {x₃ : Option α₃}
    {x₄ : Option α₄} {f : α₁ → α₂ → α₃ → α₄ → Option β} {b : β} :
    (x₁ >>= fun a₁ => x₂ >>= fun a₂ => x₃ >>= fun a₃ => x₄ >>= fun a₄ => f a₁ a₂ a₃ a₄) = some b ↔
      ∃ a₁ a₂ a₃ a₄, x₁ = some a₁ ∧ x₂ = some a₂ ∧ x₃ = some a₃ ∧ x₄ = some a₄ ∧
        f a₁ a₂ a₃ a₄ = some b := by
  simp only [Option.bind_eq_bind, Option.bind_eq_some_iff]
  constructor
  · rintro ⟨_, h₁, _, h₂, _, h₃, _, h₄, h⟩
    exact ⟨_, _, _, _, h₁, h₂, h₃, h₄, h⟩
  · rintro ⟨_, _, _, _, h₁, h₂, h₃, h₄, h⟩
    exact ⟨_, h₁, _, h₂, _, h₃, _, h₄, h⟩

theorem read_object_iff {ms : Fields} {c : Config} :
    Config.read (.object ms) = some c ↔ fields.Forall fun f => f.read ms = some (f.get c) := by
  unfold Config.read
  constructor
  · intro h
    obtain ⟨_, ⟨⟩, h⟩ := Option.bind_eq_some_iff.1 h
    obtain ⟨_, _, _, _, h₁, h₂, h₃, h₄, h⟩ := bind₄_eq_some_iff.1 h
    obtain ⟨_, _, _, _, h₅, h₆, h₇, h₈, h⟩ := bind₄_eq_some_iff.1 h
    obtain ⟨_, _, _, _, h₉, h₁₀, h₁₁, h₁₂, h⟩ := bind₄_eq_some_iff.1 h
    obtain ⟨_, _, _, _, h₁₃, h₁₄, h₁₅, h₁₆, h⟩ := bind₄_eq_some_iff.1 h
    obtain ⟨_, _, _, _, h₁₇, h₁₈, h₁₉, h₂₀, h⟩ := bind₄_eq_some_iff.1 h
    obtain ⟨_, h₂₁, h⟩ := Option.bind_eq_some_iff.1 h
    obtain ⟨_, h₂₂, h⟩ := Option.bind_eq_some_iff.1 h
    obtain ⟨_, h₂₃, ⟨⟩⟩ := Option.bind_eq_some_iff.1 h
    exact ⟨h₁, h₂, h₃, h₄, h₅, h₆, h₇, h₈, h₉, h₁₀, h₁₁, h₁₂, h₁₃, h₁₄, h₁₅, h₁₆, h₁₇, h₁₈, h₁₉,
      h₂₀, h₂₁, h₂₂, h₂₃⟩
  · rintro ⟨h₁, h₂, h₃, h₄, h₅, h₆, h₇, h₈, h₉, h₁₀, h₁₁, h₁₂, h₁₃, h₁₄, h₁₅, h₁₆, h₁₇, h₁₈, h₁₉,
      h₂₀, h₂₁, h₂₂, h₂₃⟩
    refine Option.bind_eq_some_iff.2 ⟨ms, rfl, ?_⟩
    refine bind₄_eq_some_iff.2 ⟨_, _, _, _, h₁, h₂, h₃, h₄, ?_⟩
    refine bind₄_eq_some_iff.2 ⟨_, _, _, _, h₅, h₆, h₇, h₈, ?_⟩
    refine bind₄_eq_some_iff.2 ⟨_, _, _, _, h₉, h₁₀, h₁₁, h₁₂, ?_⟩
    refine bind₄_eq_some_iff.2 ⟨_, _, _, _, h₁₃, h₁₄, h₁₅, h₁₆, ?_⟩
    refine bind₄_eq_some_iff.2 ⟨_, _, _, _, h₁₇, h₁₈, h₁₉, h₂₀, ?_⟩
    refine Option.bind_eq_some_iff.2 ⟨_, h₂₁, ?_⟩
    refine Option.bind_eq_some_iff.2 ⟨_, h₂₂, ?_⟩
    exact Option.bind_eq_some_iff.2 ⟨_, h₂₃, rfl⟩

theorem codec : Codec Config.read Config.read Config.json 3 :=
  .ofFields fields (fun _ => rfl) rfl (fun _ _ => read_object_iff.1) (fun _ _ => read_object_iff)
    (fun _ => rfl) (by decide) (by decide)

/-! ## Limits -/

theorem within_ofStrings (k : Nat) (ss : List String) : (ofStrings ss).Within (k + 1) :=
  within_array_iff.2 ⟨k, rfl, List.forall_mem_map.2 fun s _ => within_string k s⟩

theorem within_ofMap_iff {m : SortedMap String α} {k : Nat} :
    (ofMap write m).Within (k + 1) ↔ ∀ e ∈ m.entries, (write e.2).Within k := by
  rw [ofMap, within_object_iff]
  constructor
  · rintro ⟨_, ⟨⟩, h⟩
    exact fun e he => h (e.1, write e.2) (List.mem_map_of_mem he)
  · exact fun h => ⟨k, rfl, List.forall_mem_map.2 h⟩

theorem within_ofOption_iff {o : Option α} {k : Nat} :
    (ofOption write o).Within k ↔ ∀ a ∈ o, (write a).Within k := by
  cases o with
  | none => simpa [ofOption] using within_null k
  | some a => simp [ofOption]

theorem within_of_asWord? {w : Written} {n k : Nat} (h : w.asWord? = some n) :
    (ofNat n).Within k := by
  have := (asWord?_eq_some_iff.1 h).2
  exact within_number_iff.2 ⟨by omega, by omega⟩

theorem runs_of_read {w : Written} {c : Config} (h : Config.read w = some c) :
    ∃ ms, defaulted "optimizeMap" (map Written.asWord?) ∅ ms = some c.optimizeMap ∧
      Schema.optional "optimize" Written.asWord? ms = some c.optimize := by
  obtain ⟨ms, -, h⟩ := Option.bind_eq_some_iff.1 h
  obtain ⟨-, -, -, -, -, -, hmap, -, -, -, -, -, -, -, -, -, -, -, -, hoptimize, -⟩ :=
    read_object_iff.1 (show Config.read (.object ms) = some c from h)
  exact ⟨ms, hmap, hoptimize⟩

/-- A configuration is written within limits, whatever it is read from. -/
theorem within_of_read {w : Written} {c : Config} (h : Config.read w = some c) :
    c.json.Within 3 := by
  obtain ⟨ms, hmap, hoptimize⟩ := runs_of_read h
  have hruns : ∀ e ∈ c.optimizeMap.entries, (ofNat e.2).Within 1 := by
    intro e he
    rcases defaulted_eq_some_iff.1 hmap with ⟨-, hempty⟩ | ⟨w, -, hw⟩
    · rw [← hempty] at he
      cases he
    · match w, hw with
      | .object ms, hw =>
        obtain ⟨f, -, hf⟩ := exists_of_mem_map hw he
        exact within_of_asWord? hf
  have hall : ∀ n ∈ c.optimize, (ofNat n).Within 2 := by
    intro n hn
    obtain ⟨m, -, -, hm⟩ := exists_of_optional (hoptimize.trans (congrArg some hn))
    exact within_of_asWord? hm
  refine within_object_iff.2 ⟨2, rfl, ?_⟩
  simp only [List.forall_mem_cons, List.not_mem_nil, false_implies, implies_true, and_true,
    within_ofStrings, within_ofMap_iff, within_ofOption_iff, within_string, within_bool, true_and]
  exact ⟨hruns, hall⟩

end ContractModel.Config
