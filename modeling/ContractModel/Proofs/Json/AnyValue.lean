import Mathlib.Data.List.Forall2
import Mathlib.Data.List.Nodup
import ContractModel.Proofs.Json.Values

/-! # Values that are read as they are

Where any value may stand it is read with every repeated name resolved. Such a value repeats no
name any more, so it is read again exactly if all its numbers are given back.
-/

namespace ContractModel.Json

theorem mapM_eq_some_iff {α β : Type} {f : α → Option β} {as : List α} {bs : List β} :
    as.mapM f = some bs ↔ List.Forall₂ (fun a b => f a = some b) as bs := by
  induction as generalizing bs with
  | nil => simp [eq_comm]
  | cons a as ih =>
    simp only [List.mapM_cons, Option.bind_eq_bind, Option.bind_eq_some_iff, ih, Option.pure_def,
      Option.some.injEq, List.forall₂_cons_left_iff, eq_comm (b := bs)]
    grind

/-- A list whose elements are written one by one is read again if every element is. -/
theorem mapM_map_eq_some_iff {α β : Type} {f : α → Option β} {g : β → α} {bs : List β} :
    (bs.map g).mapM f = some bs ↔ ∀ b ∈ bs, f (g b) = some b := by
  rw [mapM_eq_some_iff, List.forall₂_map_left_iff, List.forall₂_same]

theorem exists_of_mem_mapM {α β : Type} {f : α → Option β} {as : List α} {bs : List β} {b : β}
    (h : as.mapM f = some bs) (hb : b ∈ bs) : ∃ a ∈ as, f a = some b := by
  rw [mapM_eq_some_iff] at h
  induction h with
  | nil => cases hb
  | cons hab _ ih =>
    rcases List.mem_cons.1 hb with rfl | hb
    · exact ⟨_, List.mem_cons_self, hab⟩
    · obtain ⟨a, ha, hab⟩ := ih hb
      exact ⟨a, List.mem_cons_of_mem _ ha, hab⟩

/-- Values that are read one by one keep their names. -/
theorem names_of_mapM {α β : Type} {f : α → Option β} {as : List (String × α)}
    {bs : List (String × β)} (h : (as.mapM fun a => (f a.2).map fun b => (a.1, b)) = some bs) :
    bs.map Prod.fst = as.map Prod.fst := by
  rw [mapM_eq_some_iff] at h
  induction h with
  | nil => rfl
  | cons hab _ ih =>
    obtain ⟨b, -, rfl⟩ := Option.map_eq_some_iff.1 hab
    rw [List.map_cons, List.map_cons, ih]

/-! ## Members without repeated names -/

namespace Members

variable {ms : Members} {name : String} {value : Json}

theorem names_set (ms : Members) (name : String) (value : Json) :
    (ms.set name value).map Prod.fst =
      if name ∈ ms.map Prod.fst then ms.map Prod.fst else ms.map Prod.fst ++ [name] := by
  have hany : (ms.any (·.1 == name)) = true ↔ name ∈ ms.map Prod.fst := by
    simp
  unfold set
  split
  · next h =>
    rw [if_pos (hany.1 h), List.map_map]
    refine List.map_congr_left fun m _ => ?_
    by_cases hm : m.1 = name <;> simp [hm]
  · next h => rw [if_neg (fun hmem => h (hany.2 hmem)), List.map_append, List.map_singleton]

theorem nodup_set (h : (ms.map Prod.fst).Nodup) (name : String) (value : Json) :
    ((ms.set name value).map Prod.fst).Nodup := by
  rw [names_set]
  split
  · exact h
  · next hname => exact List.concat_eq_append ▸ (List.nodup_concat _ _).2 ⟨hname, h⟩

theorem mem_set {m : String × Json} (h : m ∈ ms.set name value) : m = (name, value) ∨ m ∈ ms := by
  unfold set at h
  split at h
  · obtain ⟨m, hm, rfl⟩ := List.mem_map.1 h
    split
    · exact .inl rfl
    · exact .inr hm
  · simpa [or_comm] using h

theorem set_of_notMem (h : name ∉ ms.map Prod.fst) (value : Json) :
    ms.set name value = ms ++ [(name, value)] := by
  refine if_neg fun hany => h ?_
  simpa using hany

theorem nodup_distinct (ms : Members) : (ms.distinct.map Prod.fst).Nodup := by
  have hfold : ∀ acc : Members, (acc.map Prod.fst).Nodup →
      ((ms.foldl (fun acc m => set acc m.1 m.2) acc).map Prod.fst).Nodup := by
    induction ms with
    | nil => exact fun _ h => h
    | cons m ms ih => exact fun acc h => ih _ (nodup_set h m.1 m.2)
  exact hfold [] List.nodup_nil

theorem mem_of_mem_distinct {m : String × Json} (h : m ∈ ms.distinct) : m ∈ ms := by
  have hfold : ∀ acc : Members, m ∈ ms.foldl (fun acc m => set acc m.1 m.2) acc →
      m ∈ ms ∨ m ∈ acc := by
    clear h
    induction ms with
    | nil => exact fun _ h => .inr h
    | cons m' ms ih =>
      intro acc h
      rcases ih _ h with h | h
      · exact .inl (List.mem_cons_of_mem _ h)
      · rcases mem_set h with rfl | h
        · exact .inl List.mem_cons_self
        · exact .inr h
  simpa using hfold [] h

/-- Nothing is to resolve where no name is repeated. -/
theorem distinct_of_nodup (h : (ms.map Prod.fst).Nodup) : ms.distinct = ms := by
  have hfold : ∀ acc : Members, ((acc ++ ms).map Prod.fst).Nodup →
      ms.foldl (fun acc m => set acc m.1 m.2) acc = acc ++ ms := by
    clear h
    induction ms with
    | nil => simp
    | cons m ms ih =>
      intro acc h
      have hm : m.1 ∉ acc.map Prod.fst := by
        intro hm
        rw [List.map_append, List.nodup_append] at h
        exact h.2.2 m.1 hm m.1 List.mem_cons_self rfl
      rw [List.foldl_cons, set_of_notMem hm, ih _ (by simpa using h), List.append_assoc,
        List.singleton_append]
  exact hfold [] h

end Members

/-! ## Reading any value -/

/-- No object in the value repeats a name. -/
inductive IsNormal : Json → Prop
  | null : IsNormal .null
  | bool {b : Bool} : IsNormal (.bool b)
  | number {n : Number} : IsNormal (.number n)
  | string {s : String} : IsNormal (.string s)
  | array {js : List Json} (h : ∀ j ∈ js, IsNormal j) : IsNormal (.array js)
  | object {ms : Members} (hnames : (ms.map Prod.fst).Nodup) (h : ∀ m ∈ ms, IsNormal m.2) :
      IsNormal (.object ms)

theorem any_array (ws : List Written) :
    Schema.any (.array ws) = (ws.mapM Schema.any).map .array := by
  have hitems : (Written.itemValues? ws).map normalItems = ws.mapM Schema.any := by
    induction ws with
    | nil => rfl
    | cons w ws ih =>
      rw [List.mapM_cons, ← ih, Schema.any, Written.itemValues?]
      cases w.value? <;> cases Written.itemValues? ws <;> rfl
  rw [← hitems, Schema.any, Written.value?]
  cases Written.itemValues? ws <;> rfl

theorem any_object (ms : List (String × Written)) :
    Schema.any (.object ms) =
      (ms.mapM fun m => (Schema.any m.2).map fun j => (m.1, j)).map
        fun ms => .object (Members.distinct ms) := by
  have hmembers : (Written.memberValues? ms).map normalMembers =
      ms.mapM fun m => (Schema.any m.2).map fun j => (m.1, j) := by
    induction ms with
    | nil => rfl
    | cons m ms ih =>
      rw [List.mapM_cons, ← ih, Schema.any, Written.memberValues?]
      cases m.2.value? <;> cases Written.memberValues? ms <;> rfl
  rw [← hmembers, Schema.any, Written.value?]
  cases Written.memberValues? ms <;> rfl

variable {ρ : Number → Written} {k : Nat} {w : Written} {j : Json}

theorem any_eq_number_iff {n : Number} : Schema.any w = some (.number n) ↔ w = .number n := by
  cases w with
  | array ws => simp [any_array]
  | object ms => simp [any_object]
  | _ => simp [Schema.any, Written.value?, normal]

theorem any_eq_null_iff : Schema.any w = some .null ↔ w = .null := by
  cases w with
  | array ws => simp [any_array]
  | object ms => simp [any_object]
  | _ => simp [Schema.any, Written.value?, normal]

mutual

theorem isNormal_normal (j : Json) : j.normal.IsNormal := by
  cases j with
  | array js => exact .array (isNormal_normalItems js)
  | object ms =>
    exact .object (Members.nodup_distinct _) fun m hm =>
      isNormal_normalMembers ms m (Members.mem_of_mem_distinct hm)
  | _ => constructor

theorem isNormal_normalItems (js : List Json) : ∀ j ∈ normalItems js, j.IsNormal := by
  cases js with
  | nil => exact fun _ h => nomatch h
  | cons j js => exact List.forall_mem_cons.2 ⟨isNormal_normal j, isNormal_normalItems js⟩

theorem isNormal_normalMembers (ms : Members) : ∀ m ∈ normalMembers ms, m.2.IsNormal := by
  cases ms with
  | nil => exact fun _ h => nomatch h
  | cons m ms => exact List.forall_mem_cons.2 ⟨isNormal_normal m.2, isNormal_normalMembers ms⟩

end

theorem isNormal_of_any (h : Schema.any w = some j) : j.IsNormal := by
  obtain ⟨j, -, rfl⟩ := Option.map_eq_some_iff.1 h
  exact isNormal_normal j

/-- A value is read within the limits of what is written. -/
theorem within_of_any (h : Schema.any w = some j) (hw : w.Within k) : j.Within k := by
  induction hw generalizing j with
  | array _ ih =>
    rw [any_array, Option.map_eq_some_iff] at h
    obtain ⟨js, hjs, rfl⟩ := h
    refine within_array_iff.2 ⟨_, rfl, fun j hj => ?_⟩
    obtain ⟨w, hw, hwj⟩ := exists_of_mem_mapM hjs hj
    exact ih w hw hwj
  | object _ ih =>
    rw [any_object, Option.map_eq_some_iff] at h
    obtain ⟨ms, hms, rfl⟩ := h
    refine within_object_iff.2 ⟨_, rfl, fun m hm => ?_⟩
    obtain ⟨w, hw, hwm⟩ := exists_of_mem_mapM hms (Members.mem_of_mem_distinct hm)
    obtain ⟨j, hj, rfl⟩ := Option.map_eq_some_iff.1 hwm
    exact ih w hw hj
  | unreadable => cases h
  | number hn =>
    cases h
    exact within_number_iff.2 hn
  | null =>
    cases h
    exact within_null _
  | bool =>
    cases h
    exact within_bool _ _
  | string =>
    cases h
    exact within_string _ _

/-- A value without repeated names is read again exactly if its numbers are given back. -/
theorem IsNormal.any_readAs_iff (h : j.IsNormal) :
    Schema.any (j.readAs ρ) = some j ↔ j.Fixed ρ := by
  induction h with
  | array _ ih =>
    rw [readAs_array, any_array, fixed_array_iff, ← forall₂_congr ih, ← mapM_map_eq_some_iff]
    simp
  | @object ms hnames _ ih =>
    have hread : ((ms.map fun m => (m.1, m.2.readAs ρ)).mapM fun m =>
        (Schema.any m.2).map fun j => (m.1, j)) = some ms ↔ ∀ m ∈ ms, m.2.Fixed ρ := by
      rw [mapM_map_eq_some_iff, ← forall₂_congr ih]
      simp [Prod.ext_iff]
    rw [readAs_object, any_object, fixed_object_iff, ← hread, Option.map_eq_some_iff]
    constructor
    · rintro ⟨ms', hms', heq⟩
      have hnames' : (ms'.map Prod.fst).Nodup := by
        rw [names_of_mapM hms', List.map_map]
        exact hnames
      rw [Members.distinct_of_nodup hnames'] at heq
      cases heq
      exact hms'
    · exact fun hms => ⟨ms, hms, by rw [Members.distinct_of_nodup hnames]⟩
  | number => exact any_eq_number_iff.trans fixed_number_iff.symm
  | _ => exact iff_of_true rfl (by simp)

end ContractModel.Json
