import ContractModel.Proofs.RecentCache
import Mathlib.Data.List.Dedup
import Mathlib.Data.List.DropRight
import Mathlib.Data.List.Induction

/-! # The order of last use

Every write and every read that is answered uses a key. A cache should keep the keys that were used
last, the least recent one in front, so that this is the one to make room. It does so exactly as
long as no key is written again while another one was used since: such a write changes the value and
leaves the entry where it stands.
-/

namespace ContractModel.RecentCache

inductive Access (κ α : Type) where
  | read (k : κ)
  | write (k : κ) (v : α)

variable {κ α : Type} [DecidableEq κ]

def access (c : RecentCache κ α) : Access κ α → RecentCache κ α
  | .read k => (c.get? k).2
  | .write k v => c.insert k v

/-- The cache behind accesses that began with an empty one. -/
def after (capacity : Nat) (as : List (Access κ α)) : RecentCache κ α :=
  as.foldl access (empty capacity)

section Reference

/-- The value of a key in the last write to it. -/
def lastWritten (as : List (Access κ α)) (k : κ) : Option α :=
  as.reverse.findSome? fun
    | .read _ => none
    | .write k' v => if k' = k then some v else none

/-- The keys that were used last, as many as there is room for, in the order of their last uses. -/
def latest (capacity : Nat) (uses : List κ) : List κ := uses.dedup.rtake capacity

/-- The uses up to an access: a write uses its key, and so does a read if it is answered. -/
def usesWith (capacity : Nat) (uses : List κ) : Access κ α → List κ
  | .read k => if k ∈ latest capacity uses then uses ++ [k] else uses
  | .write k _ => uses ++ [k]

/-- The keys of all uses in their order. -/
def usesOf (capacity : Nat) (as : List (Access κ α)) : List κ := as.foldl (usesWith capacity) []

/-- The keys that should be cached behind the accesses, the least recent one in front. -/
def kept (capacity : Nat) (as : List (Access κ α)) : List κ :=
  latest capacity (usesOf capacity as)

/-- The cache holds the keys that were used last in the order of their uses, and answers with the
values that were written last. -/
structure HoldsLatest (capacity : Nat) (as : List (Access κ α)) : Prop where
  order : (after capacity as).entries.map Prod.fst = kept capacity as
  answers : ∀ k, ((after capacity as).get? k).1 =
    if k ∈ kept capacity as then lastWritten as k else none

/-- Keys are written while they are not kept, or were the last ones to be used. -/
def WritesInOrder (capacity : Nat) (as : List (Access κ α)) : Prop :=
  ∀ front k v, front ++ [.write k v] <+: as → k ∈ kept capacity front →
    (kept capacity front).getLast? = some k

end Reference

variable {capacity : Nat} {as : List (Access κ α)} {a : Access κ α} {k : κ} {v : α}
  {ks uses : List κ}

section Latest

/-- A further use moves the key behind all others. -/
theorem dedup_concat (ks : List κ) (k : κ) :
    (ks ++ [k]).dedup = ks.dedup.filter (· ≠ k) ++ [k] := by
  induction ks with
  | nil => rfl
  | cons k' ks ih =>
    rw [List.cons_append, List.dedup_cons, List.dedup_cons, ih]
    by_cases hmem : k' ∈ ks
    · rw [if_pos hmem, if_pos (List.mem_append_left _ hmem)]
    · by_cases hk : k' = k
      · subst hk
        simp [hmem]
      · simp [hmem, hk]

theorem length_le_length_filter_ne (h : ks.Nodup) (k : κ) :
    ks.length ≤ (ks.filter (· ≠ k)).length + 1 := by
  have hcount := List.length_eq_length_filter_add (l := ks) (· ≠ k)
  have hone : (ks.filter fun k' => !decide (k' ≠ k)).length ≤ 1 := by
    simpa [List.count_eq_length_filter, beq_eq_decide] using List.nodup_iff_count_le_one.1 h k
  omega

omit [DecidableEq κ] in
theorem rtake_of_length_le (h : ks.length ≤ capacity) : ks.rtake capacity = ks := by
  rw [List.rtake, Nat.sub_eq_zero_of_le h, List.drop_zero]

omit [DecidableEq κ] in
theorem rtake_append_of_le_length {front : List κ} (h : capacity ≤ ks.length) :
    (front ++ ks).rtake capacity = ks.rtake capacity := by
  have hlength : front.length + ks.length - capacity = front.length + (ks.length - capacity) := by
    omega
  rw [List.rtake, List.rtake, List.length_append, hlength, List.drop_length_add_append]

/-- Without one key, the last ones are found among one more of them. -/
theorem rtake_filter_ne (h : ks.Nodup) (k : κ) (n : Nat) :
    (ks.filter (· ≠ k)).rtake n = ((ks.rtake (n + 1)).filter (· ≠ k)).rtake n := by
  rcases Nat.le_total ks.length (n + 1) with hle | hle
  · rw [rtake_of_length_le hle]
  · have hsplit := List.take_append_drop (ks.length - (n + 1)) ks
    have hlast : ((ks.drop (ks.length - (n + 1))).filter (· ≠ k)).length ≥ n := by
      have := length_le_length_filter_ne (h.sublist (List.drop_sublist (ks.length - (n + 1)) ks)) k
      rw [List.length_drop] at this
      omega
    conv_lhs => rw [← hsplit, List.filter_append, rtake_append_of_le_length hlast]
    rfl

/-- The latest keys behind a further use are found among the latest ones before. -/
theorem latest_concat (capacity : Nat) (uses : List κ) (k : κ) :
    latest capacity (uses ++ [k]) =
      ((latest capacity uses).filter (· ≠ k) ++ [k]).rtake capacity := by
  cases capacity with
  | zero => simp [latest]
  | succ n =>
    rw [latest, latest, dedup_concat, List.rtake_concat_succ, List.rtake_concat_succ,
      rtake_filter_ne (List.nodup_dedup uses)]

theorem length_latest_le (capacity : Nat) (uses : List κ) :
    (latest capacity uses).length ≤ capacity := by
  rw [latest, List.rtake, List.length_drop]
  omega

theorem nodup_latest (capacity : Nat) (uses : List κ) : (latest capacity uses).Nodup :=
  (List.nodup_dedup uses).sublist (List.drop_sublist _ _)

/-- To use a kept key moves it behind the others. -/
theorem latest_concat_of_mem (h : k ∈ latest capacity uses) :
    latest capacity (uses ++ [k]) = (latest capacity uses).filter (· ≠ k) ++ [k] := by
  rw [latest_concat, rtake_of_length_le]
  have hlt : ((latest capacity uses).filter (· ≠ k)).length < (latest capacity uses).length :=
    List.length_filter_lt_length_iff_exists.2 ⟨k, h, by simp⟩
  have := length_latest_le capacity uses
  rw [List.length_append, List.length_singleton]
  omega

/-- To use another key puts it behind them, and the first one gives way if there is no room. -/
theorem latest_concat_of_notMem (h : k ∉ latest capacity uses) :
    latest capacity (uses ++ [k]) = (latest capacity uses ++ [k]).rtake capacity := by
  rw [latest_concat, List.filter_eq_self.2]
  intro k' hk'
  exact decide_eq_true (ne_of_mem_of_not_mem hk' h)

/-- A list without repetitions stays as it is only if the key that moves was the last one. -/
theorem filter_ne_append_eq_self_iff (h : ks.Nodup) :
    ks.filter (· ≠ k) ++ [k] = ks ↔ ks.getLast? = some k := by
  constructor
  · intro heq
    rw [← heq, List.getLast?_concat]
  · intro hlast
    obtain ⟨front, rfl⟩ := List.getLast?_eq_some_iff.1 hlast
    have hk : k ∉ front := fun hk => by
      simpa using (List.nodup_append.1 h).2.2 k hk
    have hfront : front.filter (· ≠ k) = front :=
      List.filter_eq_self.2 fun k' hk' => decide_eq_true (ne_of_mem_of_not_mem hk' hk)
    rw [List.filter_append, hfront]
    simp

end Latest

section Cache

variable {c : RecentCache κ α}

/-- The cached keys in their order. -/
def keys (c : RecentCache κ α) : List κ := c.entries.map Prod.fst

omit [DecidableEq κ] in
@[simp] theorem keys_empty (capacity : Nat) : (empty capacity : RecentCache κ α).keys = [] := rfl

omit [DecidableEq κ] in
@[simp] theorem length_keys (c : RecentCache κ α) : c.keys.length = c.size := List.length_map _

theorem exists_peek?_iff : (∃ v, c.peek? k = some v) ↔ k ∈ c.keys := by
  rw [← Option.ne_none_iff_exists', Ne, peek?_eq_none_iff, not_not]
  rfl

theorem keys_get? (c : RecentCache κ α) (k : κ) :
    (c.get? k).2.keys = if k ∈ c.keys then c.keys.filter (· ≠ k) ++ [k] else c.keys := by
  unfold get?
  cases hpeek : c.peek? k with
  | none =>
    have hk : k ∉ c.keys := peek?_eq_none_iff.1 hpeek
    rw [if_neg hk]
  | some v =>
    rw [if_pos (exists_peek?_iff.1 ⟨v, hpeek⟩), keys, keys, List.map_append, List.filter_map]
    rfl

/-- A key that is cached keeps its place when it is written. -/
theorem keys_insert_of_mem (h : k ∈ c.keys) (v : α) : (c.insert k v).keys = c.keys := by
  obtain ⟨w, hw⟩ := exists_peek?_iff.2 h
  unfold insert
  split
  · rfl
  · rw [if_pos (by rw [hw]; rfl), keys, keys, List.map_map]
    refine List.map_congr_left fun e _ => ?_
    rw [Function.comp_apply]
    split
    · next hkey => exact hkey.symm
    · rfl

/-- A new key goes behind the others, and the first one gives way if there is no room. -/
theorem keys_insert_of_notMem (hsize : c.size ≤ c.capacity) (h : k ∉ c.keys) (v : α) :
    (c.insert k v).keys = (c.keys ++ [k]).rtake c.capacity := by
  have hnone : c.peek? k = none := peek?_eq_none_iff.2 h
  have hlength : (c.keys ++ [k]).length = c.size + 1 := by simp
  unfold insert
  split
  · next hzero =>
    have hempty : c.keys = [] := List.length_eq_zero_iff.1 (by rw [length_keys]; omega)
    rw [hzero, List.rtake_zero, hempty]
  · next hpos =>
    rw [if_neg (by simp [hnone]), List.rtake, hlength]
    split
    · next hfull =>
      have hone : c.size + 1 - c.capacity = 1 := by
        rw [size] at *
        omega
      have hne : 1 ≤ c.keys.length := by
        rw [length_keys]
        omega
      rw [hone, List.drop_append_of_le_length hne]
      simp [keys]
    · next hroom =>
      have hzero : c.size + 1 - c.capacity = 0 := by
        rw [size] at *
        omega
      rw [hzero, List.drop_zero]
      simp [keys]

theorem peek?_insert_self (h : c.Distinct) (hcapacity : c.capacity ≠ 0) (k : κ) (v : α) :
    (c.insert k v).peek? k = some v := by
  rw [peek?_eq_some_iff (distinct_insert h k v)]
  unfold insert
  rw [if_neg hcapacity]
  split
  · next hsome =>
    obtain ⟨w, hw⟩ := Option.isSome_iff_exists.1 hsome
    exact List.mem_map.2 ⟨(k, w), mem_of_peek? hw, if_pos rfl⟩
  · exact List.mem_append_right _ List.mem_cons_self

@[simp] theorem capacity_access (c : RecentCache κ α) (a : Access κ α) :
    (c.access a).capacity = c.capacity := by
  cases a with
  | read k =>
    change (c.get? k).2.capacity = c.capacity
    unfold get?
    cases c.peek? k <;> rfl
  | write k v =>
    change (c.insert k v).capacity = c.capacity
    unfold insert
    split
    · rfl
    · split <;> rfl

theorem distinct_access (h : c.Distinct) (a : Access κ α) : (c.access a).Distinct := by
  cases a with
  | read k => exact distinct_get? h k
  | write k v => exact distinct_insert h k v

theorem size_access_le (h : c.size ≤ c.capacity) (a : Access κ α) :
    (c.access a).size ≤ c.capacity := by
  rw [← length_keys] at h ⊢
  cases a with
  | read k =>
    rw [access, keys_get?]
    split
    · next hk =>
      have hlt : (c.keys.filter (· ≠ k)).length < c.keys.length :=
        List.length_filter_lt_length_iff_exists.2 ⟨k, hk, by simp⟩
      rw [List.length_append, List.length_singleton]
      omega
    · exact h
  | write k v =>
    by_cases hk : k ∈ c.keys
    · rw [access, keys_insert_of_mem hk]
      exact h
    · rw [access, keys_insert_of_notMem (by rwa [← length_keys]) hk, List.rtake, List.length_drop]
      omega

end Cache

section Run

theorem after_concat (capacity : Nat) (as : List (Access κ α)) (a : Access κ α) :
    after capacity (as ++ [a]) = (after capacity as).access a :=
  List.foldl_concat _ _ _ _

theorem usesOf_concat (capacity : Nat) (as : List (Access κ α)) (a : Access κ α) :
    usesOf capacity (as ++ [a]) = usesWith capacity (usesOf capacity as) a :=
  List.foldl_concat _ _ _ _

theorem kept_concat_read (capacity : Nat) (as : List (Access κ α)) (k : κ) :
    kept capacity (as ++ [.read k]) =
      if k ∈ kept capacity as then (kept capacity as).filter (· ≠ k) ++ [k]
      else kept capacity as := by
  rw [kept, usesOf_concat, usesWith]
  change latest capacity (if k ∈ kept capacity as then _ else _) = _
  split
  · next hk => exact latest_concat_of_mem hk
  · rfl

theorem kept_concat_write (capacity : Nat) (as : List (Access κ α)) (k : κ) (v : α) :
    kept capacity (as ++ [.write k v]) =
      if k ∈ kept capacity as then (kept capacity as).filter (· ≠ k) ++ [k]
      else (kept capacity as ++ [k]).rtake capacity := by
  rw [kept, usesOf_concat, usesWith]
  split
  · next hk => exact latest_concat_of_mem hk
  · next hk => exact latest_concat_of_notMem hk

theorem capacity_after (capacity : Nat) (as : List (Access κ α)) :
    (after capacity as).capacity = capacity := by
  induction as using List.reverseRecOn with
  | nil => rfl
  | append_singleton as a ih => rw [after_concat, capacity_access, ih]

theorem distinct_after (capacity : Nat) (as : List (Access κ α)) :
    (after capacity as).Distinct := by
  induction as using List.reverseRecOn with
  | nil => exact distinct_empty capacity
  | append_singleton as a ih =>
    rw [after_concat]
    exact distinct_access ih a

theorem size_after_le (capacity : Nat) (as : List (Access κ α)) :
    (after capacity as).size ≤ capacity := by
  induction as using List.reverseRecOn with
  | nil => exact Nat.zero_le capacity
  | append_singleton as a ih =>
    have hsize := size_access_le (Nat.le_trans ih (capacity_after capacity as).ge) a
    rwa [capacity_after, ← after_concat] at hsize

theorem lastWritten_concat_read (as : List (Access κ α)) (k k' : κ) :
    lastWritten (as ++ [.read k']) k = lastWritten as k := by
  simp [lastWritten]

theorem lastWritten_concat_write (as : List (Access κ α)) (k k' : κ) (v : α) :
    lastWritten (as ++ [.write k' v]) k = if k' = k then some v else lastWritten as k := by
  by_cases h : k' = k <;> simp [lastWritten, h]

/-- What is cached for a key was written last. -/
theorem lastWritten_of_peek? (h : (after capacity as).peek? k = some v) :
    lastWritten as k = some v := by
  induction as using List.reverseRecOn generalizing v with
  | nil => cases h
  | append_singleton as a ih =>
    have hdistinct := distinct_after capacity as
    rw [after_concat] at h
    cases a with
    | read k' =>
      rw [access, peek?_get? hdistinct] at h
      rw [lastWritten_concat_read, ih h]
    | write k' w =>
      rw [access] at h
      rw [lastWritten_concat_write]
      split
      · next hk =>
        subst hk
        by_cases hcapacity : (after capacity as).capacity = 0
        · have hsize := size_access_le (c := after capacity as) (a := .write k' w) (by
            rw [capacity_after]
            exact size_after_le capacity as)
          have hmem := exists_peek?_iff.1 ⟨v, h⟩
          have hpos := List.length_pos_of_mem hmem
          rw [length_keys] at hpos
          rw [access] at hsize
          omega
        · rw [peek?_insert_self hdistinct hcapacity] at h
          exact h
      · next hk =>
        rcases peek?_of_insert hdistinct h with ⟨heq, -⟩ | h
        · exact absurd heq.symm hk
        · exact ih h

/-- In the right order the cache gives the right answers. -/
theorem holdsLatest_iff_keys :
    HoldsLatest capacity as ↔ (after capacity as).keys = kept capacity as := by
  refine ⟨HoldsLatest.order, fun horder => ⟨horder, fun k => ?_⟩⟩
  rw [fst_get?]
  split
  · next hk =>
    rw [← horder] at hk
    obtain ⟨v, hv⟩ := exists_peek?_iff.2 hk
    rw [hv, lastWritten_of_peek? hv]
  · next hk =>
    rw [← horder] at hk
    exact peek?_eq_none_iff.2 hk

/-- A read moves the key as the use that it is. -/
theorem HoldsLatest.read (h : HoldsLatest capacity as) (k : κ) :
    HoldsLatest capacity (as ++ [.read k]) := by
  rw [holdsLatest_iff_keys] at h ⊢
  rw [after_concat, access, keys_get?, h, kept_concat_read]

/-- A write moves the key as the use that it is unless the key is cached and another was used
since. -/
theorem HoldsLatest.write_iff (h : HoldsLatest capacity as) (k : κ) (v : α) :
    HoldsLatest capacity (as ++ [.write k v]) ↔
      (k ∈ kept capacity as → (kept capacity as).getLast? = some k) := by
  rw [holdsLatest_iff_keys] at h ⊢
  rw [after_concat, access, kept_concat_write]
  by_cases hk : k ∈ kept capacity as
  · have hmem : k ∈ (after capacity as).keys := h ▸ hk
    rw [keys_insert_of_mem hmem, h, if_pos hk, forall_prop_of_true hk, eq_comm]
    exact filter_ne_append_eq_self_iff (nodup_latest _ _)
  · have hmem : k ∉ (after capacity as).keys := h ▸ hk
    have hsize : (after capacity as).size ≤ (after capacity as).capacity := by
      rw [capacity_after]
      exact size_after_le capacity as
    rw [keys_insert_of_notMem hsize hmem, h, if_neg hk, capacity_after]
    exact iff_of_true rfl fun hmem => absurd hmem hk

theorem writesInOrder_concat_iff : WritesInOrder capacity (as ++ [a]) ↔
    WritesInOrder capacity as ∧ ∀ k v, a = .write k v → k ∈ kept capacity as →
      (kept capacity as).getLast? = some k := by
  unfold WritesInOrder
  simp only [List.prefix_concat_iff]
  constructor
  · intro h
    refine ⟨fun front k v hfront => h front k v (.inr hfront), fun k v ha => ?_⟩
    exact h as k v (.inl (by rw [ha]))
  · rintro ⟨hfronts, ha⟩ front k v (heq | hfront)
    · obtain ⟨rfl, hlast⟩ := List.append_inj' heq rfl
      exact ha k v (List.singleton_inj.1 hlast).symm
    · exact hfronts front k v hfront

/-- The keys are in the order of their last uses at every moment of a run exactly if no key is
written that is cached while another was used since. -/
theorem forall_holdsLatest_iff :
    (∀ front, front <+: as → HoldsLatest capacity front) ↔ WritesInOrder capacity as := by
  induction as using List.reverseRecOn with
  | nil =>
    refine iff_of_true (fun front hfront => ?_) fun front k v hfront => ?_
    · rw [List.prefix_nil.1 hfront, holdsLatest_iff_keys]
      simp [after, kept, usesOf, latest]
    · simp at hfront
  | append_singleton as a ih =>
    have hfronts : (∀ front, front <+: as ++ [a] → HoldsLatest capacity front) ↔
        (∀ front, front <+: as → HoldsLatest capacity front) ∧
          HoldsLatest capacity (as ++ [a]) := by
      simp only [List.prefix_concat_iff, forall_eq_or_imp, and_comm]
    rw [hfronts, writesInOrder_concat_iff, ih, ← ih]
    refine and_congr_right fun h => ?_
    have has := h as (List.prefix_refl as)
    cases a with
    | read k => exact iff_of_true (has.read k) fun _ _ heq => nomatch heq
    | write k v =>
      rw [has.write_iff k v]
      constructor
      · rintro hlast _ _ ⟨⟩
        exact hlast
      · exact fun hlast => hlast k v rfl

end Run

/-- A cache never holds more than it has room for, and a key that it answers has the value that was
written last. At every moment of a run it is the list of the keys that were used last, in the order
of their uses, exactly if no key is written that is cached while another was used since. -/
theorem holdsLatest_throughout_iff (capacity : Nat) (as : List (Access κ α)) :
    (after capacity as).size ≤ capacity ∧
    (∀ k v, ((after capacity as).get? k).1 = some v → lastWritten as k = some v) ∧
    ((∀ front, front <+: as → HoldsLatest capacity front) ↔ WritesInOrder capacity as) := by
  refine ⟨size_after_le capacity as, fun k v h => ?_, forall_holdsLatest_iff⟩
  rw [fst_get?] at h
  exact lastWritten_of_peek? h

/-- The key of the last write may be written again, and a read keeps a key from giving way. -/
theorem holdsLatest_throughout_inOrder :
    WritesInOrder 2 [.write "a" 1, .write "a" 2, .write "b" 3, .read "a", .write "c" 4] ∧
    HoldsLatest 2 [.write "a" 1, .write "a" 2, .write "b" 3, .read "a", .write "c" 4] ∧
    kept 2 [.write "a" 1, .write "a" 2, .write "b" 3, .read "a", .write "c" 4] = ["a", "c"] := by
  have hwrites :
      WritesInOrder 2 ([] ++ [.write "a" 1] ++ [.write "a" 2] ++ [.write "b" 3] ++ [.read "a"] ++
        [.write "c" 4]) := by
    simp only [writesInOrder_concat_iff, Access.write.injEq, reduceCtorEq, false_implies,
      implies_true, and_true, and_imp]
    refine ⟨⟨⟨⟨fun front k v hfront => ?_, ?_⟩, ?_⟩, ?_⟩, ?_⟩
    · simp at hfront
    all_goals
      rintro _ _ rfl rfl
      decide +kernel
  exact ⟨hwrites, (holdsLatest_throughout_iff 2 _).2.2.2 hwrites _ (List.prefix_refl _),
    by decide +kernel⟩

/-- A key that is written again makes room for the next one, although it was used last. -/
theorem not_holdsLatest_writtenAgain :
    ((after 2 [.write "a" 1, .write "b" 2, .write "a" 3, .write "c" 4]).get? "a").1 = none ∧
    kept 2 [.write "a" 1, .write "b" 2, .write "a" 3, .write "c" 4] = ["a", "c"] ∧
    ¬ ∀ capacity (as : List (Access String Nat)), HoldsLatest capacity as := by
  refine ⟨by decide +kernel, by decide +kernel, fun h => ?_⟩
  have horder := (h 2 [.write "a" 1, .write "b" 2, .write "a" 3, .write "c" 4]).order
  exact absurd horder (by decide +kernel)

end ContractModel.RecentCache
