import ContractModel.Interface.Entry
import ContractModel.Proofs.Json.Codecs

/-! # Reading written interface entries

A parameter is read from at most as many nested records as its text has, so how many are allowed
plays no role and the reader is the record of its fields.
-/

namespace ContractModel

open Json Json.Schema

variable {α : Type} {read read' : Written → Option α} {w : Written} {ms : Fields} {n : Nat}

namespace Json.Written

theorem depth_lt_of_mem_items {ws : List Written} (h : w ∈ ws) :
    w.depth < (Written.array ws).depth := by
  have hle : w.depth ≤ depthItems ws := by
    induction ws with
    | nil => cases h
    | cons v ws ih =>
      rw [depthItems]
      rcases List.mem_cons.1 h with rfl | h
      · exact Nat.le_max_left _ _
      · exact Nat.le_trans (ih h) (Nat.le_max_right _ _)
  exact Nat.lt_succ_of_le hle

theorem depth_lt_of_mem_members {m : String × Written} (h : m ∈ ms) :
    m.2.depth < (Written.object ms).depth := by
  have hle : m.2.depth ≤ depthMembers ms := by
    induction ms with
    | nil => cases h
    | cons m' ms ih =>
      rw [depthMembers]
      rcases List.mem_cons.1 h with rfl | h
      · exact Nat.le_max_left _ _
      · exact Nat.le_trans (ih h) (Nat.le_max_right _ _)
  exact Nat.lt_succ_of_le hle

end Json.Written

theorem Json.Schema.depth_lt_of_record {names : List String} {m : String × Written}
    (h : record names w = some ms) (hm : m ∈ ms) : m.2.depth < w.depth := by
  match w, h with
  | .object _, rfl => exact Written.depth_lt_of_mem_members hm
  | .array ws, h =>
    rw [record, Option.ite_none_right_eq_some] at h
    obtain ⟨-, ⟨⟩⟩ := h
    exact Written.depth_lt_of_mem_items (List.of_mem_zip hm).2

/-- Readers that agree on everything nested less deeply read the same list. -/
theorem Json.Schema.list_congr (h : ∀ v : Written, v.depth < w.depth → read v = read' v) :
    list read w = list read' w := by
  match w, h with
  | .array ws, h =>
    have hall : ∀ v ∈ ws, read v = read' v := fun v hv => h v (Written.depth_lt_of_mem_items hv)
    clear h
    rw [list, list]
    induction ws with
    | nil => rfl
    | cons v ws ih =>
      rw [List.mapM_cons, List.mapM_cons, hall v List.mem_cons_self,
        ih fun v hv => hall v (List.mem_cons_of_mem _ hv)]
  | .unreadable, _ | .null, _ | .bool _, _ | .number _, _ | .string _, _ | .object _, _ => rfl

theorem Json.Schema.optional_congr {name : String} (h : ∀ m ∈ ms, read m.2 = read' m.2) :
    Schema.optional name read ms = Schema.optional name read' ms := by
  refine Option.bind_congr fun w? hunique => ?_
  cases w? with
  | none => rfl
  | some w =>
    obtain ⟨m, hm, rfl⟩ := mem_of_unique hunique
    have hread := h m hm
    show nullable read m.2 = nullable read' m.2
    generalize m.2 = w at hread
    cases w <;> simp only [nullable, hread]

namespace InterfaceParameter

theorem readWithin_succ (h : w.depth ≤ n) : readWithin (n + 1) w = readWithin n w := by
  induction n generalizing w with
  | zero =>
    match w, h with
    | .unreadable, _ | .null, _ | .bool _, _ | .number _, _ | .string _, _ => rfl
  | succ n ih =>
    rw [readWithin, readWithin]
    refine Option.bind_congr fun ms hms => Option.bind_congr fun _ _ => Option.bind_congr
      fun _ _ => Option.bind_congr fun _ _ => ?_
    have hcomponents : Schema.optional "components" (list (readWithin (n + 1))) ms =
        Schema.optional "components" (list (readWithin n)) ms := by
      refine optional_congr fun m hm => list_congr fun v hv => ih ?_
      have := depth_lt_of_record hms hm
      omega
    rw [hcomponents]

theorem readWithin_eq_read (h : w.depth ≤ n) : readWithin n w = InterfaceParameter.read w := by
  obtain ⟨d, rfl⟩ := Nat.exists_eq_add_of_le h
  induction d with
  | zero => rfl
  | succ d ih => rw [← Nat.add_assoc, readWithin_succ (Nat.le_add_right _ d), ih (by omega)]

theorem json_eq (p : InterfaceParameter) : p.json = .object
    ([("name", .string p.name), ("type", .string p.typeString)] ++
      member? "internalType" .string p.internalType ++
      member? "components" (fun ps => .array (ps.map InterfaceParameter.json)) p.components) := by
  have hlist (ps : List InterfaceParameter) : jsonList ps = ps.map InterfaceParameter.json := by
    induction ps with
    | nil => rfl
    | cons p ps ih => rw [jsonList, ih, List.map_cons]
  cases p with
  | mk name typeString internalType components =>
    cases components with
    | none => rfl
    | some ps =>
      rw [json, jsonComponents, hlist]
      rfl

/-- The members of a parameter; its components may be read within limits at first. -/
def fields {origin : Written → Option InterfaceParameter} {depth : Nat}
    (hc : Codec origin InterfaceParameter.read InterfaceParameter.json depth) :
    List (RecordField InterfaceParameter) :=
  [⟨name, codec_string.defaulted "name" readable_empty⟩,
    ⟨typeString, codec_string.required "type"⟩,
    ⟨internalType, codec_string.optional "internalType"⟩,
    ⟨components, hc.list.optional "components"⟩]

theorem readWithin_object_iff {ms : Fields} {p : InterfaceParameter} :
    readWithin (n + 1) (.object ms) = some p ↔
      defaulted "name" Written.asString? "" ms = some p.name ∧
      required "type" Written.asString? ms = some p.typeString ∧
      Schema.optional "internalType" Written.asString? ms = some p.internalType ∧
      Schema.optional "components" (list (readWithin n)) ms = some p.components := by
  cases p
  simp [readWithin, record, Option.bind_eq_some_iff]

theorem read_object_iff {ms : Fields} {p : InterfaceParameter} :
    InterfaceParameter.read (.object ms) = some p ↔
      defaulted "name" Written.asString? "" ms = some p.name ∧
      required "type" Written.asString? ms = some p.typeString ∧
      Schema.optional "internalType" Written.asString? ms = some p.internalType ∧
      Schema.optional "components" (list InterfaceParameter.read) ms = some p.components := by
  have hcomponents : Schema.optional "components" (list (readWithin (Written.depthMembers ms))) ms =
      Schema.optional "components" (list InterfaceParameter.read) ms := by
    refine optional_congr fun m hm => list_congr fun v hv => readWithin_eq_read ?_
    have hdepth : m.2.depth < Written.depthMembers ms + 1 := Written.depth_lt_of_mem_members hm
    omega
  rw [← hcomponents, InterfaceParameter.read, Written.depth, readWithin_object_iff]

theorem codec_readWithin (n : Nat) :
    Codec (readWithin n) InterfaceParameter.read InterfaceParameter.json 0 := by
  induction n with
  | zero => exact ⟨fun h => (nomatch h), fun h => (nomatch h), fun h => (nomatch h)⟩
  | succ n ih =>
    exact .ofFields (fields ih) (fun _ => rfl) rfl (fun _ _ => readWithin_object_iff.1)
      (fun _ _ => read_object_iff) (fun p => by simp [json_eq, membersOf, fields])
      (by simp [fields]) (by simp [fields, deeper])

theorem codec :
    Codec InterfaceParameter.read InterfaceParameter.read InterfaceParameter.json 0 where
  readAs_iff h := (codec_readWithin _).readAs_iff h
  within h := (codec_readWithin _).within h
  ne_null h := (codec_readWithin _).ne_null h

end InterfaceParameter

namespace InterfaceEntry

theorem codec_parameters : Codec (list InterfaceParameter.read) (list InterfaceParameter.read)
    (fun ps => .array (ps.map InterfaceParameter.json)) 1 :=
  InterfaceParameter.codec.list.mono (Nat.zero_le 1)

def fields : List (RecordField InterfaceEntry) :=
  [⟨kind, codec_string.required "type"⟩,
    ⟨name, codec_string.optional "name"⟩,
    ⟨inputs, codec_parameters.defaulted "inputs" readable_nil⟩,
    ⟨outputs, codec_parameters.defaulted "outputs" readable_nil⟩,
    ⟨stateMutability, codec_string.optional "stateMutability"⟩,
    ⟨payable, codec_bool.optional "payable"⟩]

theorem read_object_iff {ms : Fields} {e : InterfaceEntry} :
    InterfaceEntry.read (.object ms) = some e ↔
      fields.Forall fun f => f.read ms = some (f.get e) := by
  cases e
  simp [InterfaceEntry.read, record, Option.bind_eq_some_iff, fields]

theorem codec : Codec InterfaceEntry.read InterfaceEntry.read InterfaceEntry.json 2 :=
  .ofFields fields (fun _ => rfl) rfl (fun _ _ => read_object_iff.1) (fun _ _ => read_object_iff)
    (fun _ => by simp [InterfaceEntry.json, membersOf, fields]) (by decide) (by decide)

end InterfaceEntry

end ContractModel
