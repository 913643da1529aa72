import ContractModel.Proofs.Json.AnyValue

/-! # Readers and writers that belong together

What one reader read, a writer writes so that another reads it, within the limits of what was read.
A reader is looked at on its own, and as the reader of a member of a record, which may be required,
have a default or be optional. All of it is said of a text that may give back other numbers: a value
is read again exactly if all its numbers are given back.
-/

namespace ContractModel.Json

open Schema

variable {α : Type}

/-- What the first reader read, the second reads from what is written; the writer nests at most so
deeply where nothing deep is read. -/
structure Codec (origin read : Written → Option α) (write : α → Json) (depth : Nat) : Prop where
  readAs_iff {w : Written} {a : α} (h : origin w = some a) (ρ : Number → Written) :
    read ((write a).readAs ρ) = some a ↔ (write a).Fixed ρ
  within {w : Written} {a : α} {k : Nat} (h : origin w = some a) (hk : depth ≤ k)
    (hw : w.Within k) : (write a).Within k
  /-- Nothing but `null` is read as `null` is. -/
  ne_null {w : Written} {a : α} (h : origin w = some a) (hw : w ≠ .null) : read .null ≠ some a

/-- The same for the members of a record that have a name. -/
structure FieldCodec (name : String) (origin read : Fields → Option α) (write : α → Members)
    (depth : Nat) : Prop where
  named {a : α} {m : String × Json} (hm : m ∈ write a) : m.1 = name
  readAs_iff {ms : Fields} {a : α} (h : origin ms = some a) {ms' : Members}
    (hms : ms'.filter (·.1 == name) = write a) (ρ : Number → Written) :
    read (readAsMembers ρ ms') = some a ↔ ∀ m ∈ write a, m.2.Fixed ρ
  within {ms : Fields} {a : α} {k : Nat} (h : origin ms = some a) (hk : depth ≤ k)
    (hms : ∀ m ∈ ms, m.2.Within k) : ∀ m ∈ write a, m.2.Within k

/-- One level more, unless nothing is nested that was not read so. -/
def deeper (depth : Nat) : Nat := if depth = 0 then 0 else depth + 1

theorem le_of_deeper_le {depth k : Nat} (h : deeper depth ≤ k + 1) : depth ≤ k := by
  unfold deeper at h
  split at h <;> omega

/-! ## Readers of values -/

theorem codec_string : Codec Written.asString? Written.asString? .string 0 where
  readAs_iff _ _ := iff_of_true rfl (fixed_string _)
  within _ _ _ := within_string _ _
  ne_null _ _ h := nomatch h

theorem readable_empty : ∃ w, Written.asString? w = some "" ∧ w.Within 0 :=
  ⟨.string "", rfl, .string⟩

theorem codec_bool : Codec Written.asBool? Written.asBool? .bool 0 where
  readAs_iff _ _ := iff_of_true rfl (fixed_bool _)
  within _ _ _ := within_bool _ _
  ne_null _ _ h := nomatch h

theorem asWord?_eq_some_iff {w : Written} {n : Nat} :
    w.asWord? = some n ↔ w = .number (.int n) ∧ n < 0x10000000000000000 := by
  constructor
  · intro h
    match w, h with
    | .number (.int i), h =>
      simp only [Written.asWord?, asWord?, Option.ite_none_right_eq_some, Option.some.injEq] at h
      obtain ⟨hi, rfl⟩ := h
      rw [Int.toNat_of_nonneg hi.1]
      exact ⟨rfl, by omega⟩
  · rintro ⟨rfl, hn⟩
    have hrange : (0 : Int) ≤ n ∧ (n : Int) < 0x10000000000000000 := by omega
    rw [Written.asWord?, asWord?, if_pos hrange, Int.toNat_natCast]

theorem codec_word : Codec Written.asWord? Written.asWord? ofNat 0 where
  readAs_iff h ρ := by
    rw [asWord?_eq_some_iff, and_iff_left (asWord?_eq_some_iff.1 h).2, ofNat, fixed_number_iff]
    rfl
  within h _ _ := within_number_iff.2 (by
    have := (asWord?_eq_some_iff.1 h).2
    constructor <;> omega)
  ne_null _ _ h := nomatch h

theorem codec_any : Codec any any (fun j => j) 0 where
  readAs_iff h _ := (isNormal_of_any h).any_readAs_iff
  within h _ hw := within_of_any h hw
  ne_null h hw hnull := by
    cases hnull
    exact hw (any_eq_null_iff.1 h)

variable {origin read : Written → Option α} {write : α → Json} {depth : Nat}

theorem Codec.mono (hc : Codec origin read write depth) {depth' : Nat} (hd : depth ≤ depth') :
    Codec origin read write depth' where
  readAs_iff := hc.readAs_iff
  within h hk hw := hc.within h (Nat.le_trans hd hk) hw
  ne_null := hc.ne_null

theorem Codec.list (hc : Codec origin read write depth) :
    Codec (Schema.list origin) (Schema.list read) (fun as => .array (as.map write))
      (deeper depth) where
  readAs_iff {w as} h ρ := by
    match w, h with
    | .array ws, h =>
      have hread : Schema.list read ((Json.array (as.map write)).readAs ρ) = some as ↔
          ∀ a ∈ as, read ((write a).readAs ρ) = some a := by
        rw [readAs_array, List.map_map]
        exact mapM_map_eq_some_iff
      rw [hread, fixed_array_iff, List.forall_mem_map]
      refine forall₂_congr fun a ha => ?_
      obtain ⟨w, -, hw⟩ := exists_of_mem_mapM h ha
      exact hc.readAs_iff hw ρ
  within {w as k} h hk hw := by
    match w, h, hw with
    | .array ws, h, .array hws =>
      refine within_array_iff.2 ⟨_, rfl, List.forall_mem_map.2 fun a ha => ?_⟩
      obtain ⟨w, hmem, hw⟩ := exists_of_mem_mapM h ha
      exact hc.within hw (le_of_deeper_le hk) (hws w hmem)
  ne_null _ _ h := nomatch h

theorem readable_nil {d : Nat} : ∃ w, Schema.list read w = some [] ∧ w.Within (d + 1) :=
  ⟨.array [], rfl, .array fun _ h => nomatch h⟩

/-- Entries in order are the entries of the map they make up. -/
theorem ofList_entries (m : SortedMap String α) : SortedMap.ofList m.entries = m := by
  have hsorted := List.pairwise_map.1 (SortedMap.ofList m.entries).sorted
  refine SortedMap.ext ((SortedMap.perm_ofList m.nodup_keys).eq_of_pairwise
    (fun e e' _ _ h h' => ?_) hsorted (List.pairwise_map.1 m.sorted))
  exact absurd (String.lt_trans h h') (String.lt_irrefl _)

theorem mem_of_mem_ofList {es : List (String × α)} {e : String × α}
    (h : e ∈ (SortedMap.ofList es).entries) : e ∈ es := by
  have hget : (SortedMap.ofList es).get? e.1 = some e.2 := SortedMap.get?_eq_some_iff.2 h
  rcases SortedMap.mem_of_look_foldl (fun m (e : String × α) k => m.get?_insert e.1 k e.2) hget
    with h | h
  · exact h
  · cases h

theorem exists_of_mem_map {ms : Fields} {m : SortedMap String α} {e : String × α}
    (h : Schema.map read (.object ms) = some m) (he : e ∈ m.entries) :
    ∃ f ∈ ms, read f.2 = some e.2 := by
  obtain ⟨es, hes, rfl⟩ := Option.map_eq_some_iff.1 h
  obtain ⟨f, hf, hfe⟩ := exists_of_mem_mapM hes (mem_of_mem_ofList he)
  obtain ⟨a, ha, rfl⟩ := Option.map_eq_some_iff.1 hfe
  exact ⟨f, hf, ha⟩

theorem map_readAs_iff {m : SortedMap String α} {ρ : Number → Written} :
    Schema.map read ((ofMap write m).readAs ρ) = some m ↔
      ∀ e ∈ m.entries, read ((write e.2).readAs ρ) = some e.2 := by
  have hentries : ((m.entries.map fun e => (e.1, (write e.2).readAs ρ)).mapM fun f =>
      (read f.2).map fun a => (f.1, a)) = some m.entries ↔
      ∀ e ∈ m.entries, read ((write e.2).readAs ρ) = some e.2 := by
    rw [mapM_map_eq_some_iff]
    simp [Prod.ext_iff]
  rw [← hentries, ofMap, readAs_object, List.map_map, Schema.map, Option.map_eq_some_iff]
  constructor
  · rintro ⟨es, hes, rfl⟩
    have hnames : es.map Prod.fst = (SortedMap.ofList es).keys := by
      rw [names_of_mapM hes, List.map_map]
      rfl
    -- entries that are read in order stay as they are
    have hsame := ofList_entries ⟨es, hnames ▸ (SortedMap.ofList es).sorted⟩
    rw [hsame] at hes ⊢
    exact hes
  · exact fun h => ⟨m.entries, h, ofList_entries m⟩

theorem Codec.map (hc : Codec origin read write depth) :
    Codec (Schema.map origin) (Schema.map read) (ofMap write) (deeper depth) where
  readAs_iff {w m} h ρ := by
    match w, h with
    | .object ms, h =>
      rw [map_readAs_iff, fixed_ofMap_iff]
      refine forall₂_congr fun e he => ?_
      obtain ⟨f, -, hf⟩ := exists_of_mem_map h he
      exact hc.readAs_iff hf ρ
  within {w m k} h hk hw := by
    match w, h, hw with
    | .object ms, h, .object hms =>
      refine within_object_iff.2 ⟨_, rfl, List.forall_mem_map.2 fun e he => ?_⟩
      obtain ⟨f, hmem, hf⟩ := exists_of_mem_map h he
      exact hc.within hf (le_of_deeper_le hk) (hms f hmem)
  ne_null _ _ h := nomatch h

/-! ## Readers of members -/

section Members

variable {name : String} {ms : Fields} {ms' : Members} {ρ : Number → Written}

theorem mem_of_unique {w : Written} (h : unique name ms = some (some w)) : ∃ m ∈ ms, m.2 = w := by
  unfold unique at h
  split at h
  · cases h
  · next m heq =>
    cases h
    exact ⟨m, List.mem_of_mem_filter (heq ▸ List.mem_singleton_self m), rfl⟩
  · cases h

theorem filter_readAsMembers (ρ : Number → Written) (ms' : Members) :
    (readAsMembers ρ ms').filter (·.1 == name) =
      (ms'.filter (·.1 == name)).map fun m => (m.1, m.2.readAs ρ) := by
  rw [readAsMembers_eq, List.filter_map]
  rfl

theorem unique_readAs_of_nil (h : ms'.filter (·.1 == name) = []) :
    unique name (readAsMembers ρ ms') = some none := by
  rw [unique, filter_readAsMembers, h]
  rfl

theorem unique_readAs_of_singleton {j : Json} (h : ms'.filter (·.1 == name) = [(name, j)]) :
    unique name (readAsMembers ρ ms') = some (some (j.readAs ρ)) := by
  rw [unique, filter_readAsMembers, h]
  rfl

theorem required_eq_some_iff {a : α} : required name read ms = some a ↔
    ∃ w, unique name ms = some (some w) ∧ read w = some a := by
  simp [required, Option.bind_eq_some_iff]

theorem defaulted_eq_some_iff {a default : α} : defaulted name read default ms = some a ↔
    unique name ms = some none ∧ default = a ∨
      ∃ w, unique name ms = some (some w) ∧ read w = some a := by
  rw [defaulted, Option.bind_eq_bind, Option.bind_eq_some_iff]
  constructor
  · rintro ⟨_ | w, hunique, h⟩
    · exact .inl ⟨hunique, Option.some.inj h⟩
    · exact .inr ⟨w, hunique, h⟩
  · rintro (⟨hunique, rfl⟩ | ⟨w, hunique, h⟩)
    · exact ⟨none, hunique, rfl⟩
    · exact ⟨some w, hunique, h⟩

theorem nullable_eq_some_iff {w : Written} {a : α} :
    nullable read w = some (some a) ↔ w ≠ .null ∧ read w = some a := by
  cases w <;> simp [nullable]

theorem nullable_eq_none_iff {w : Written} : nullable read w = some none ↔ w = .null := by
  cases w <;> simp [nullable]

/-- What is read of an optional member is absent, or was read of a member that is not `null`. -/
theorem exists_of_optional {a : α} (h : optional name read ms = some (some a)) :
    ∃ m ∈ ms, m.2 ≠ .null ∧ read m.2 = some a := by
  rcases defaulted_eq_some_iff.1 h with ⟨-, heq⟩ | ⟨w, hunique, hread⟩
  · cases heq
  · obtain ⟨m, hm, rfl⟩ := mem_of_unique hunique
    exact ⟨m, hm, nullable_eq_some_iff.1 hread⟩

theorem Codec.required (hc : Codec origin read write depth) (name : String) :
    FieldCodec name (Schema.required name origin) (Schema.required name read)
      (fun a => [(name, write a)]) depth where
  named hm := by rw [List.mem_singleton.1 hm]
  readAs_iff {ms a} h ms' hms ρ := by
    obtain ⟨w, -, hw⟩ := required_eq_some_iff.1 h
    rw [required_eq_some_iff, unique_readAs_of_singleton hms]
    simpa using hc.readAs_iff hw ρ
  within {ms a k} h hk hms := by
    obtain ⟨w, hunique, hw⟩ := required_eq_some_iff.1 h
    obtain ⟨m, hm, rfl⟩ := mem_of_unique hunique
    simpa using hc.within hw hk (hms m hm)

/-- A member with a default is always written; the default itself can be read. -/
theorem Codec.defaulted (hc : Codec origin read write depth) (name : String) {default : α}
    (hdefault : ∃ w, origin w = some default ∧ w.Within depth) :
    FieldCodec name (Schema.defaulted name origin default) (Schema.defaulted name read default)
      (fun a => [(name, write a)]) depth where
  named hm := by rw [List.mem_singleton.1 hm]
  readAs_iff {ms a} h ms' hms ρ := by
    have hread : read ((write a).readAs ρ) = some a ↔ (write a).Fixed ρ := by
      rcases defaulted_eq_some_iff.1 h with ⟨-, rfl⟩ | ⟨w, -, hw⟩
      · obtain ⟨w, hw, -⟩ := hdefault
        exact hc.readAs_iff hw ρ
      · exact hc.readAs_iff hw ρ
    rw [defaulted_eq_some_iff, unique_readAs_of_singleton hms]
    simpa using hread
  within {ms a k} h hk hms := by
    rw [List.forall_mem_singleton]
    rcases defaulted_eq_some_iff.1 h with ⟨-, rfl⟩ | ⟨w, hunique, hw⟩
    · obtain ⟨w, hw, hwithin⟩ := hdefault
      exact hc.within hw hk (hwithin.mono hk)
    · obtain ⟨m, hm, rfl⟩ := mem_of_unique hunique
      exact hc.within hw hk (hms m hm)

theorem Codec.nullable_readAs_iff (hc : Codec origin read write depth) {a : α}
    (h : Schema.optional name origin ms = some (some a)) (ρ : Number → Written) :
    nullable read ((write a).readAs ρ) = some (some a) ↔ (write a).Fixed ρ := by
  obtain ⟨m, -, hne, hm⟩ := exists_of_optional h
  rw [nullable_eq_some_iff, ← hc.readAs_iff hm ρ]
  exact and_iff_right_of_imp fun hread hnull => hc.ne_null hm hne (hnull ▸ hread)

/-- An optional member that is left out when absent. -/
theorem Codec.optional (hc : Codec origin read write depth) (name : String) :
    FieldCodec name (Schema.optional name origin) (Schema.optional name read)
      (member? name write) depth where
  named {o m} hm := by
    cases o with
    | none => cases hm
    | some a => rw [List.mem_singleton.1 hm]
  readAs_iff {ms o} h ms' hms ρ := by
    cases o with
    | none =>
      rw [Schema.optional, defaulted_eq_some_iff, unique_readAs_of_nil hms]
      simp [member?]
    | some a =>
      rw [Schema.optional, defaulted_eq_some_iff, unique_readAs_of_singleton hms]
      simpa [member?] using hc.nullable_readAs_iff h ρ
  within {ms o k} h hk hms := by
    cases o with
    | none => exact fun _ hm => nomatch hm
    | some a =>
      obtain ⟨m, hm, -, hread⟩ := exists_of_optional h
      simpa [member?] using hc.within hread hk (hms m hm)

/-- An optional member that is `null` when absent. -/
theorem Codec.orNull (hc : Codec origin read write depth) (name : String) :
    FieldCodec name (Schema.optional name origin) (Schema.optional name read)
      (fun o => [(name, ofOption write o)]) depth where
  named hm := by rw [List.mem_singleton.1 hm]
  readAs_iff {ms o} h ms' hms ρ := by
    rw [Schema.optional, defaulted_eq_some_iff, unique_readAs_of_singleton hms]
    cases o with
    | none => simp [ofOption, readAs, nullable_eq_none_iff]
    | some a =>
      simpa [ofOption] using hc.nullable_readAs_iff h ρ
  within {ms o k} h hk hms := by
    rw [List.forall_mem_singleton]
    cases o with
    | none => exact within_null k
    | some a =>
      obtain ⟨m, hm, -, hread⟩ := exists_of_optional h
      exact hc.within hread hk (hms m hm)

/-! ## Records -/

theorem within_of_record {names : List String} {w : Written} {k : Nat}
    (h : record names w = some ms) (hw : w.Within k) :
    ∃ k', k = k' + 1 ∧ ∀ m ∈ ms, m.2.Within k' := by
  match w, h, hw with
  | .object _, rfl, .object hms => exact ⟨_, rfl, hms⟩
  | .array ws, h, .array hws =>
    rw [record, Option.ite_none_right_eq_some] at h
    obtain ⟨-, ⟨⟩⟩ := h
    exact ⟨_, rfl, fun m hm => hws m.2 (List.of_mem_zip hm).2⟩

end Members

/-- A field of a record, and the member that it is read from. -/
structure RecordField (α : Type) where
  {β : Type}
  get : α → β
  {name : String}
  {origin : Fields → Option β}
  {read : Fields → Option β}
  {write : β → Members}
  {depth : Nat}
  codec : FieldCodec name origin read write depth

/-- The members of a record with these fields. -/
def membersOf (fs : List (RecordField α)) (a : α) : Members := fs.flatMap fun f => f.write (f.get a)

/-- The members of a name are those of its field. -/
theorem filter_membersOf {fs : List (RecordField α)}
    (hnames : (fs.map RecordField.name).Nodup) {f : RecordField α}
    (hf : f ∈ fs) (a : α) : (membersOf fs a).filter (·.1 == f.name) = f.write (f.get a) := by
  have hall (f g : RecordField α) (heq : g.name = f.name) :
      (g.write (g.get a)).filter (·.1 == f.name) = g.write (g.get a) :=
    List.filter_eq_self.2 fun m hm => by simp [g.codec.named hm, heq]
  have hnone (f g : RecordField α) (hne : g.name ≠ f.name) :
      (g.write (g.get a)).filter (·.1 == f.name) = [] :=
    List.filter_eq_nil_iff.2 fun m hm => by simp [g.codec.named hm, hne]
  induction fs with
  | nil => cases hf
  | cons g fs ih =>
    rw [List.map_cons, List.nodup_cons] at hnames
    rw [membersOf, List.flatMap_cons, List.filter_append]
    rcases List.mem_cons.1 hf with rfl | hf
    · have hrest : (membersOf fs a).filter (·.1 == f.name) = [] := by
        rw [membersOf, List.filter_flatMap]
        refine List.flatMap_eq_nil_iff.2 fun g hg => hnone f g fun heq => ?_
        exact hnames.1 (heq ▸ List.mem_map_of_mem hg)
      rw [hall f f rfl, ← membersOf, hrest, List.append_nil]
    · have hne : g.name ≠ f.name := fun heq => hnames.1 (heq ▸ List.mem_map_of_mem hf)
      rw [hnone f g hne, List.nil_append]
      exact ih hnames.2 hf

theorem forall_mem_membersOf {fs : List (RecordField α)} {a : α} {P : Json → Prop} :
    (∀ m ∈ membersOf fs a, P m.2) ↔ ∀ f ∈ fs, ∀ m ∈ f.write (f.get a), P m.2 := by
  simp only [membersOf, List.mem_flatMap, forall_exists_index, and_imp]
  exact ⟨fun h f hf m hm => h m f hf hm, fun h m f hf hm => h f hf m hm⟩

/-- A record is read again if its fields are. -/
theorem Codec.ofFields {names : List String} (fs : List (RecordField α))
    (horigin : ∀ w, origin w = (record names w).bind fun ms => origin (.object ms))
    (hnull : read .null = none)
    (hfrom : ∀ ms a, origin (.object ms) = some a →
      fs.Forall fun f => f.origin ms = some (f.get a))
    (hread : ∀ ms a, read (.object ms) = some a ↔ fs.Forall fun f => f.read ms = some (f.get a))
    (hwrite : ∀ a, write a = .object (membersOf fs a)) (hnames : (fs.map RecordField.name).Nodup)
    (hdepth : ∀ f ∈ fs, f.depth ≤ depth - 1) : Codec origin read write depth where
  readAs_iff {w a} h ρ := by
    rw [horigin, Option.bind_eq_some_iff] at h
    obtain ⟨ms, -, h⟩ := h
    have hfields := List.forall_iff_forall_mem.1 (hfrom ms a h)
    rw [hwrite, readAs, hread, List.forall_iff_forall_mem, fixed_object_iff, forall_mem_membersOf]
    refine forall₂_congr fun f hf => ?_
    exact f.codec.readAs_iff (hfields f hf) (filter_membersOf hnames hf a) ρ
  within {w a k} h hk hw := by
    rw [horigin, Option.bind_eq_some_iff] at h
    obtain ⟨ms, hms, h⟩ := h
    obtain ⟨k, rfl, hms⟩ := within_of_record hms hw
    have hfields := List.forall_iff_forall_mem.1 (hfrom ms a h)
    rw [hwrite]
    refine within_object_iff.2 ⟨k, rfl, forall_mem_membersOf.2 fun f hf => ?_⟩
    have hle : f.depth ≤ k := Nat.le_trans (hdepth f hf) (Nat.sub_le_of_le_add hk)
    exact f.codec.within (hfields f hf) hle hms
  ne_null _ _ h := nomatch hnull.symm.trans h

end ContractModel.Json
