/-! # Sorted maps

Finite maps as lists of entries with strictly ascending keys, so that equal maps are equal values.
Each operation is described by its effect on `get?`.
-/

namespace ContractModel

/-- Keys in a strict order where two that do not precede each other are equal. -/
class Key (κ : Type) [LT κ] : Prop where
  lt_trans {a b c : κ} : a < b → b < c → a < c
  lt_irrefl (a : κ) : ¬ a < a
  eq_of_not_lt {a b : κ} : ¬ a < b → ¬ b < a → a = b

instance : Key Nat where
  lt_trans := Nat.lt_trans
  lt_irrefl := Nat.lt_irrefl
  eq_of_not_lt h h' := Nat.le_antisymm (Nat.not_lt.1 h') (Nat.not_lt.1 h)

instance : Key String where
  lt_trans := String.lt_trans
  lt_irrefl := String.lt_irrefl
  eq_of_not_lt h h' := String.le_antisymm (String.not_lt.1 h') (String.not_lt.1 h)

/-- A finite map; its entries are listed by ascending key. -/
@[ext]
structure SortedMap (κ : Type) (α : Type) [LT κ] where
  entries : List (κ × α)
  sorted : (entries.map Prod.fst).Pairwise (· < ·)

namespace SortedMap

variable {κ α β : Type} [LT κ]

instance [DecidableEq κ] [DecidableEq α] : DecidableEq (SortedMap κ α) := fun m n =>
  decidable_of_iff (m.entries = n.entries) (SortedMap.ext_iff (x := m) (y := n)).symm

instance [Repr κ] [Repr α] : Repr (SortedMap κ α) := ⟨fun m p => reprPrec m.entries p⟩

def empty : SortedMap κ α := ⟨[], .nil⟩

instance : EmptyCollection (SortedMap κ α) := ⟨empty⟩
instance : Inhabited (SortedMap κ α) := ⟨empty⟩

def isEmpty (m : SortedMap κ α) : Bool := m.entries.isEmpty
def size (m : SortedMap κ α) : Nat := m.entries.length
def keys (m : SortedMap κ α) : List κ := m.entries.map Prod.fst
def values (m : SortedMap κ α) : List α := m.entries.map Prod.snd

/-- The sum over all entries. -/
def total (m : SortedMap κ α) (count : κ → α → Nat) : Nat :=
  m.entries.foldl (fun n e => n + count e.1 e.2) 0

theorem length_flatMap_entries (m : SortedMap κ α) (f : κ × α → List β) :
    (m.entries.flatMap f).length = m.total fun k v => (f (k, v)).length := by
  have hfold : ∀ (es : List (κ × α)) (n : Nat), n + (es.flatMap f).length =
      es.foldl (fun n e => n + (f (e.1, e.2)).length) n := by
    intro es
    induction es with
    | nil => exact fun _ => rfl
    | cons e es ih =>
      intro n
      rw [List.flatMap_cons, List.length_append, List.foldl_cons, ← ih, Nat.add_assoc]
  rw [total, ← hfold, Nat.zero_add]

theorem nodup_keys [Key κ] (m : SortedMap κ α) : m.keys.Nodup := by
  refine m.sorted.imp fun {k k'} hlt heq => ?_
  subst heq
  exact Key.lt_irrefl k hlt

section Lookup

variable [DecidableEq κ]

def get? (m : SortedMap κ α) (k : κ) : Option α :=
  (m.entries.find? fun e => e.1 = k).map Prod.snd

def getD (m : SortedMap κ α) (k : κ) (default : α) : α := (m.get? k).getD default

def contains (m : SortedMap κ α) (k : κ) : Bool := m.entries.any fun e => e.1 = k

theorem mem_keys_iff {m : SortedMap κ α} {k : κ} : k ∈ m.keys ↔ ∃ v, m.get? k = some v := by
  rw [← Option.isSome_iff_exists]
  simp [keys, get?]

theorem contains_eq_isSome (m : SortedMap κ α) (k : κ) : m.contains k = (m.get? k).isSome := by
  rw [Bool.eq_iff_iff]
  simp [contains, get?]

theorem find?_of_mem [Key κ] {es : List (κ × α)} {e : κ × α}
    (h : (es.map Prod.fst).Pairwise (· < ·)) (he : e ∈ es) :
    es.find? (fun e' => e'.1 = e.1) = some e := by
  induction es with
  | nil => cases he
  | cons e' es ih =>
    obtain ⟨he', hes⟩ :=
      List.pairwise_cons.1 (show (e'.1 :: es.map Prod.fst).Pairwise (· < ·) from h)
    rcases List.mem_cons.1 he with rfl | he
    · exact List.find?_cons_of_pos (by simp)
    · have hlt : e'.1 < e.1 := he' e.1 (List.mem_map_of_mem he)
      have hne : e'.1 ≠ e.1 := fun heq => Key.lt_irrefl e.1 (heq ▸ hlt)
      rw [List.find?_cons_of_neg (by simpa using hne)]
      exact ih hes he

theorem get?_eq_some_iff [Key κ] {m : SortedMap κ α} {k : κ} {v : α} :
    m.get? k = some v ↔ (k, v) ∈ m.entries := by
  constructor
  · intro h
    obtain ⟨⟨k', v⟩, he, rfl⟩ := Option.map_eq_some_iff.1 h
    have hk : k' = k := by simpa using List.find?_some he
    exact hk ▸ List.mem_of_find?_eq_some he
  · intro h
    rw [get?, find?_of_mem m.sorted h]
    rfl

end Lookup

section Insert

variable [DecidableLT κ]

/-- Puts an entry in its place, over an entry with the same key. -/
def insertEntry (k : κ) (v : α) : List (κ × α) → List (κ × α)
  | [] => [(k, v)]
  | e :: es =>
    if k < e.1 then (k, v) :: e :: es
    else if e.1 < k then e :: insertEntry k v es
    else (k, v) :: es

theorem mem_insertEntry_fst {k x : κ} {v : α} {es : List (κ × α)}
    (h : x ∈ (insertEntry k v es).map Prod.fst) : x = k ∨ x ∈ es.map Prod.fst := by
  induction es with
  | nil => simpa [insertEntry] using h
  | cons e es ih => grind [insertEntry]

theorem find?_insertEntry [DecidableEq κ] [Key κ] (k k' : κ) (v : α) (es : List (κ × α)) :
    (insertEntry k v es).find? (fun e => e.1 = k') =
      if k' = k then some (k, v) else es.find? fun e => e.1 = k' := by
  induction es with
  | nil => grind [insertEntry]
  | cons e es ih =>
    have hirrefl : ¬ k < k := Key.lt_irrefl k
    have heq : ¬ k < e.1 → ¬ e.1 < k → k = e.1 := Key.eq_of_not_lt
    grind [insertEntry]

theorem length_insertEntry_le (k : κ) (v : α) (es : List (κ × α)) :
    (insertEntry k v es).length ≤ es.length + 1 := by
  induction es with
  | nil => exact Nat.le_refl _
  | cons e es ih =>
    unfold insertEntry
    split
    · exact Nat.le_refl _
    · split
      · exact Nat.succ_le_succ ih
      · exact Nat.le_succ _

variable [Key κ]

theorem pairwise_insertEntry {k : κ} {v : α} {es : List (κ × α)}
    (h : (es.map Prod.fst).Pairwise (· < ·)) :
    ((insertEntry k v es).map Prod.fst).Pairwise (· < ·) := by
  induction es with
  | nil => simp [insertEntry]
  | cons e es ih =>
    obtain ⟨he, hes⟩ := List.pairwise_cons.1 (show (e.1 :: es.map Prod.fst).Pairwise (· < ·) from h)
    unfold insertEntry
    split
    · next hk =>
      simp only [List.map_cons, List.pairwise_cons, List.mem_cons]
      refine ⟨?_, he, hes⟩
      rintro x (rfl | hx)
      · exact hk
      · exact Key.lt_trans hk (he x hx)
    · split
      · next hk hk' =>
        simp only [List.map_cons, List.pairwise_cons]
        refine ⟨fun x hx => ?_, ih hes⟩
        rcases mem_insertEntry_fst hx with rfl | hx
        · exact hk'
        · exact he x hx
      · next hk hk' =>
        have : k = e.1 := Key.eq_of_not_lt hk hk'
        simp only [List.map_cons, List.pairwise_cons]
        exact ⟨fun x hx => this ▸ he x hx, hes⟩

def insert (m : SortedMap κ α) (k : κ) (v : α) : SortedMap κ α :=
  ⟨insertEntry k v m.entries, pairwise_insertEntry m.sorted⟩

theorem get?_insert [DecidableEq κ] (m : SortedMap κ α) (k k' : κ) (v : α) :
    (m.insert k v).get? k' = if k' = k then some v else m.get? k' := by
  simp only [get?, insert, find?_insertEntry]
  split <;> rfl

theorem mem_keys_insert [DecidableEq κ] {m : SortedMap κ α} {k k' : κ} {v : α} :
    k' ∈ (m.insert k v).keys ↔ k' = k ∨ k' ∈ m.keys := by
  simp only [mem_keys_iff, get?_insert]
  by_cases h : k' = k <;> simp [h]

/-- Enters a list from the left; of entries with one key the last stays. -/
def ofList (es : List (κ × α)) : SortedMap κ α :=
  es.foldl (fun m e => m.insert e.1 e.2) ∅

theorem mem_keys_foldl_insert [DecidableEq κ] {es : List (κ × α)} {m : SortedMap κ α} {k : κ} :
    k ∈ (es.foldl (fun m e => m.insert e.1 e.2) m).keys ↔ k ∈ es.map Prod.fst ∨ k ∈ m.keys := by
  induction es generalizing m with
  | nil => simp
  | cons e es ih =>
    rw [List.foldl_cons, ih, mem_keys_insert, List.map_cons, List.mem_cons, or_left_comm,
      ← or_assoc]

theorem perm_insertEntry {k : κ} {v : α} {es : List (κ × α)} (h : k ∉ es.map Prod.fst) :
    (insertEntry k v es).Perm ((k, v) :: es) := by
  induction es with
  | nil => exact .refl _
  | cons e es ih =>
    rw [List.map_cons, List.mem_cons, not_or] at h
    unfold insertEntry
    split
    · exact .refl _
    · next hlt =>
      split
      · exact ((ih h.2).cons e).trans (.swap (k, v) e es)
      · next hlt' => exact absurd (Key.eq_of_not_lt hlt hlt') h.1

/-- Entries with distinct keys are all kept. -/
theorem perm_foldl_insert {es : List (κ × α)} (m : SortedMap κ α)
    (h : (m.entries ++ es).map Prod.fst |>.Nodup) :
    (es.foldl (fun m e => m.insert e.1 e.2) m).entries.Perm (m.entries ++ es) := by
  induction es generalizing m with
  | nil => simp
  | cons e es ih =>
    have hmoved : (m.entries ++ e :: es).Perm ((e :: m.entries) ++ es) := List.perm_middle
    have hnodup : ((e :: m.entries) ++ es).map Prod.fst |>.Nodup :=
      ((hmoved.map Prod.fst).nodup_iff).1 h
    have he : e.1 ∉ m.entries.map Prod.fst := by
      rw [List.cons_append, List.map_cons, List.nodup_cons, List.map_append, List.mem_append,
        not_or] at hnodup
      exact hnodup.1.1
    have hentries : ((m.insert e.1 e.2).entries ++ es).Perm ((e :: m.entries) ++ es) :=
      (perm_insertEntry he).append_right es
    refine ((ih (m.insert e.1 e.2) ?_).trans hentries).trans hmoved.symm
    exact ((hentries.map Prod.fst).nodup_iff).2 hnodup

theorem perm_ofList {es : List (κ × α)} (h : (es.map Prod.fst).Nodup) :
    (ofList es).entries.Perm es :=
  perm_foldl_insert ∅ h

/-- Enters all entries of the second map into the first. -/
def union (m n : SortedMap κ α) : SortedMap κ α :=
  n.entries.foldl (fun m e => m.insert e.1 e.2) m

/-- The distinct elements of a list, in order. -/
def distinct (ks : List κ) : List κ := (ofList (ks.map fun k => (k, ()))).keys

theorem mem_distinct_iff [DecidableEq κ] {ks : List κ} {k : κ} : k ∈ distinct ks ↔ k ∈ ks := by
  have hempty : k ∉ (∅ : SortedMap κ Unit).keys := List.not_mem_nil
  rw [distinct, ofList, mem_keys_foldl_insert, or_iff_left hempty, List.map_map]
  exact iff_of_eq (congrArg (k ∈ ·) (List.map_id ks))

theorem length_foldl_insert_le (es : List (κ × α)) (m : SortedMap κ α) :
    (es.foldl (fun m e => m.insert e.1 e.2) m).entries.length ≤ m.entries.length + es.length := by
  induction es generalizing m with
  | nil => exact Nat.le_refl _
  | cons e es ih =>
    have hinsert : (m.insert e.1 e.2).entries.length ≤ m.entries.length + 1 :=
      length_insertEntry_le e.1 e.2 m.entries
    have hrest := ih (m.insert e.1 e.2)
    rw [List.foldl_cons, List.length_cons]
    omega

theorem length_distinct_le (ks : List κ) : (distinct ks).length ≤ ks.length := by
  have h := length_foldl_insert_le (ks.map fun k => (k, ())) ∅
  rw [List.length_map] at h
  rw [distinct, keys, List.length_map]
  exact Nat.le_trans h (Nat.le_of_eq (Nat.zero_add _))

end Insert

section Updates

/-! Values put one after the other: the last one at each key stays. -/

variable {μ : Type} [DecidableEq κ] {look : μ → κ → Option α} {put : μ → κ × α → μ}

omit [LT κ] in
theorem mem_of_look_foldl (h : ∀ m w k, look (put m w) k = if k = w.1 then some w.2 else look m k)
    {ws : List (κ × α)} {m : μ} {k : κ} {v : α} (hk : look (ws.foldl put m) k = some v) :
    (k, v) ∈ ws ∨ look m k = some v := by
  induction ws generalizing m with
  | nil => exact .inr hk
  | cons w ws ih =>
    rcases ih hk with hmem | hm
    · exact .inl (List.mem_cons_of_mem _ hmem)
    · rw [h] at hm
      split at hm
      · next heq =>
        cases heq
        cases hm
        exact .inl List.mem_cons_self
      · exact .inr hm

omit [LT κ] in
theorem look_foldl_of_notMem
    (h : ∀ m w k, look (put m w) k = if k = w.1 then some w.2 else look m k)
    {ws : List (κ × α)} {k : κ} (hk : k ∉ ws.map Prod.fst) (m : μ) :
    look (ws.foldl put m) k = look m k := by
  induction ws generalizing m with
  | nil => rfl
  | cons w ws ih =>
    rw [List.map_cons, List.mem_cons, not_or] at hk
    rw [List.foldl_cons, ih hk.2, h, if_neg hk.1]

omit [LT κ] in
theorem look_foldl_of_mem (h : ∀ m w k, look (put m w) k = if k = w.1 then some w.2 else look m k)
    {ws : List (κ × α)} (hn : (ws.map Prod.fst).Nodup) {k : κ} {v : α} (hk : (k, v) ∈ ws) (m : μ) :
    look (ws.foldl put m) k = some v := by
  induction ws generalizing m with
  | nil => cases hk
  | cons w ws ih =>
    obtain ⟨hw, hws⟩ := List.nodup_cons.1 (show (w.1 :: ws.map Prod.fst).Nodup from hn)
    rcases List.mem_cons.1 hk with rfl | hk
    · rw [List.foldl_cons, look_foldl_of_notMem h hw, h, if_pos rfl]
    · exact ih hws hk _

end Updates

theorem pairwise_filter {p : κ × α → Bool} {es : List (κ × α)}
    (h : (es.map Prod.fst).Pairwise (· < ·)) :
    ((es.filter p).map Prod.fst).Pairwise (· < ·) :=
  h.sublist (List.filter_sublist.map _)

def filter (m : SortedMap κ α) (p : κ → α → Bool) : SortedMap κ α :=
  ⟨m.entries.filter fun e => p e.1 e.2, pairwise_filter m.sorted⟩

def erase [DecidableEq κ] (m : SortedMap κ α) (k : κ) : SortedMap κ α :=
  m.filter fun k' _ => k' ≠ k

theorem get?_erase [DecidableEq κ] (m : SortedMap κ α) (k k' : κ) :
    (m.erase k).get? k' = if k' = k then none else m.get? k' := by
  simp only [get?, erase, filter, List.find?_filter]
  split
  · next h =>
    subst h
    simp
  · next h =>
    congr 2
    funext e
    grind

def mapValues (m : SortedMap κ α) (f : κ → α → β) : SortedMap κ β :=
  ⟨m.entries.map fun e => (e.1, f e.1 e.2), by simpa [Function.comp_def] using m.sorted⟩

theorem get?_mapValues [DecidableEq κ] (m : SortedMap κ α) (f : κ → α → β) (k : κ) :
    (m.mapValues f).get? k = (m.get? k).map (f k) := by
  have hsame : ((fun e : κ × β => decide (e.1 = k)) ∘ fun e : κ × α => (e.1, f e.1 e.2)) =
      fun e => decide (e.1 = k) := rfl
  rw [get?, get?, mapValues, List.find?_map, hsame, Option.map_map, Option.map_map]
  refine Option.map_congr fun e he => ?_
  have hk : e.1 = k := by simpa using List.find?_some he
  exact congrArg (fun k => f k e.2) hk

/-- Replaces the value of a key that is present. -/
def modify [DecidableEq κ] (m : SortedMap κ α) (k : κ) (f : α → α) : SortedMap κ α :=
  m.mapValues fun k' v => if k' = k then f v else v

end SortedMap

end ContractModel
