import ContractModel.RecentCache
import Mathlib.Data.List.Infix
import Mathlib.Data.List.Nodup

/-! # What a bounded cache remembers

Reading forgets nothing, and writing changes what is remembered of one key and may forget another.
So what is remembered in the course of a run was found when the key was last missing.
-/

namespace ContractModel.RecentCache

variable {κ α ε : Type} [DecidableEq κ] {c : RecentCache κ α} {k k' : κ} {v w : α} {e : κ × α}

/-- Each key has one entry. -/
def Distinct (c : RecentCache κ α) : Prop := (c.entries.map Prod.fst).Nodup

omit [DecidableEq κ] in
theorem distinct_empty (capacity : Nat) : (empty capacity : RecentCache κ α).Distinct := .nil

theorem peek?_eq_none_iff : c.peek? k = none ↔ k ∉ c.entries.map Prod.fst := by
  simp only [peek?, Option.map_eq_none_iff, List.find?_eq_none, List.mem_map, decide_eq_true_eq,
    not_exists, not_and]

theorem mem_of_peek? (h : c.peek? k = some v) : (k, v) ∈ c.entries := by
  obtain ⟨⟨k', v⟩, hfind, rfl⟩ := Option.map_eq_some_iff.1 h
  obtain rfl : k' = k := by simpa using List.find?_some hfind
  exact List.mem_of_find?_eq_some hfind

/-- With one entry a key, to look a key up is to find its entry. -/
theorem peek?_eq_some_iff (h : c.Distinct) : c.peek? k = some v ↔ (k, v) ∈ c.entries := by
  constructor
  · exact mem_of_peek?
  · intro hmem
    obtain ⟨w, hw⟩ : ∃ w, c.peek? k = some w := by
      refine Option.ne_none_iff_exists'.1 fun hnone => ?_
      exact peek?_eq_none_iff.1 hnone (List.mem_map_of_mem hmem)
    obtain ⟨e, hfind, rfl⟩ := Option.map_eq_some_iff.1 hw
    have hkey : e.1 = k := by simpa using List.find?_some hfind
    rw [hw, List.inj_on_of_nodup_map h (List.mem_of_find?_eq_some hfind) hmem hkey]

section Get

theorem fst_get? (c : RecentCache κ α) (k : κ) : (c.get? k).1 = c.peek? k := by
  unfold get?
  cases c.peek? k <;> rfl

theorem mem_of_mem_get? (h : e ∈ (c.get? k).2.entries) : e ∈ c.entries := by
  unfold get? at h
  cases hpeek : c.peek? k with
  | none => rwa [hpeek] at h
  | some v =>
    rw [hpeek] at h
    rcases List.mem_append.1 h with h | h
    · exact (List.mem_filter.1 h).1
    · rw [List.mem_singleton.1 h]
      exact mem_of_peek? hpeek

theorem mem_entries_get?_iff (h : c.Distinct) : e ∈ (c.get? k).2.entries ↔ e ∈ c.entries := by
  unfold get?
  cases hpeek : c.peek? k with
  | none => rfl
  | some v =>
    have hmem := (peek?_eq_some_iff h).1 hpeek
    simp only [List.mem_append, List.mem_filter, decide_eq_true_eq, List.mem_singleton]
    constructor
    · rintro (he | rfl)
      · exact he.1
      · exact hmem
    · intro he
      by_cases hkey : e.1 = k
      · exact .inr (List.inj_on_of_nodup_map h he hmem hkey)
      · exact .inl ⟨he, hkey⟩

theorem distinct_get? (h : c.Distinct) (k : κ) : (c.get? k).2.Distinct := by
  unfold get?
  cases c.peek? k with
  | none => exact h
  | some v =>
    change (List.map Prod.fst (_ ++ [(k, v)])).Nodup
    rw [List.map_append, List.map_singleton]
    refine List.Nodup.append (h.sublist (List.filter_sublist.map _)) (List.nodup_singleton k) ?_
    rw [List.disjoint_singleton]
    intro hmem
    obtain ⟨e, he, rfl⟩ := List.mem_map.1 hmem
    simpa using (List.mem_filter.1 he).2

/-- Reading forgets nothing. -/
theorem peek?_get? (h : c.Distinct) (k k' : κ) : (c.get? k).2.peek? k' = c.peek? k' := by
  ext v
  simp only [peek?_eq_some_iff h, peek?_eq_some_iff (distinct_get? h k), mem_entries_get?_iff h]

end Get

section Insert

theorem mem_of_mem_insert (h : e ∈ (c.insert k v).entries) : e = (k, v) ∨ e ∈ c.entries := by
  unfold insert at h
  split at h
  · exact .inr h
  · split at h
    · obtain ⟨e', he', rfl⟩ := List.mem_map.1 h
      split
      · exact .inl rfl
      · exact .inr he'
    · rcases List.mem_append.1 h with h | h
      · split at h
        · exact .inr (List.mem_of_mem_drop h)
        · exact .inr h
      · exact .inl (List.mem_singleton.1 h)

theorem distinct_insert (h : c.Distinct) (k : κ) (v : α) : (c.insert k v).Distinct := by
  unfold insert
  split
  · exact h
  · split
    · have hkeys : (c.entries.map fun e => if e.1 = k then (k, v) else e).map Prod.fst =
          c.entries.map Prod.fst := by
        rw [List.map_map]
        refine List.map_congr_left fun e _ => ?_
        rw [Function.comp_apply]
        split
        · next hkey => exact hkey.symm
        · rfl
      change (List.map Prod.fst (List.map _ c.entries)).Nodup
      rw [hkeys]
      exact h
    · next hpeek =>
      have hnew : k ∉ c.entries.map Prod.fst := by
        rw [← peek?_eq_none_iff]
        exact Option.not_isSome_iff_eq_none.1 hpeek
      have hkept : (if c.capacity ≤ c.entries.length then c.entries.drop 1 else c.entries).Sublist
          c.entries := by
        split
        · exact List.drop_sublist 1 _
        · exact List.Sublist.refl _
      change (List.map Prod.fst (_ ++ [(k, v)])).Nodup
      rw [List.map_append, List.map_singleton]
      refine List.Nodup.append (h.sublist (hkept.map _)) (List.nodup_singleton k) ?_
      rw [List.disjoint_singleton]
      exact fun hmem => hnew ((hkept.map _).subset hmem)

/-- What is remembered after a write was written or remembered before. -/
theorem peek?_of_insert (h : c.Distinct) (hpeek : (c.insert k v).peek? k' = some w) :
    (k' = k ∧ w = v) ∨ c.peek? k' = some w := by
  rcases mem_of_mem_insert ((peek?_eq_some_iff (distinct_insert h k v)).1 hpeek) with heq | hmem
  · cases heq
    exact .inl ⟨rfl, rfl⟩
  · exact .inr ((peek?_eq_some_iff h).2 hmem)

end Insert

section Consult

/-- Answers from memory, or else with what is found now, which is remembered unless it is a fault. -/
def consult (c : RecentCache κ α) (k : κ) (found : Except ε α) :
    Except ε α × RecentCache κ α :=
  match c.get? k with
  | (some v, c') => (.ok v, c')
  | (none, _) =>
    match found with
    | .ok v => (.ok v, c.insert k v)
    | .error e => (.error e, c)

variable {found : Except ε α}

theorem consult_of_some (h : c.peek? k = some v) (found : Except ε α) :
    c.consult k found = (.ok v, (c.get? k).2) := by
  have hget := fst_get? c k
  unfold consult
  rcases hc : c.get? k with ⟨_ | w, c'⟩
  · rw [hc, h] at hget
    cases hget
  · rw [hc, h] at hget
    cases hget
    rfl

theorem fst_consult_of_none (h : c.peek? k = none) : (c.consult k found).1 = found := by
  have hget := fst_get? c k
  unfold consult
  rcases hc : c.get? k with ⟨_ | w, c'⟩
  · cases found <;> rfl
  · rw [hc, h] at hget
    cases hget

theorem snd_consult_of_none (h : c.peek? k = none) : (c.consult k found).2 =
    match found with
    | .ok v => c.insert k v
    | .error _ => c := by
  have hget := fst_get? c k
  unfold consult
  rcases hc : c.get? k with ⟨_ | w, c'⟩
  · cases found <;> rfl
  · rw [hc, h] at hget
    cases hget

theorem distinct_consult (h : c.Distinct) (k : κ) (found : Except ε α) :
    (c.consult k found).2.Distinct := by
  cases hpeek : c.peek? k with
  | some v =>
    rw [consult_of_some hpeek]
    exact distinct_get? h k
  | none =>
    rw [snd_consult_of_none hpeek]
    cases found with
    | error e => exact h
    | ok v => exact distinct_insert h k v

/-- What is remembered after an answer was remembered before, or was missing and has just been
found. -/
theorem peek?_of_consult (h : c.Distinct) (hpeek : (c.consult k found).2.peek? k' = some v) :
    c.peek? k' = some v ∨ (c.peek? k' = none ∧ k' = k ∧ found = .ok v) := by
  cases hk : c.peek? k with
  | some w =>
    rw [consult_of_some hk, peek?_get? h] at hpeek
    exact .inl hpeek
  | none =>
    rw [snd_consult_of_none hk] at hpeek
    cases found with
    | error e => exact .inl hpeek
    | ok w =>
      rcases peek?_of_insert h hpeek with ⟨rfl, rfl⟩ | hbefore
      · exact .inr ⟨hk, rfl, rfl⟩
      · exact .inl hbefore

end Consult

section Run

variable {σ ρ : Type}

/-- A system that keeps a cache: some of its steps are questions, which name a key and what is found
for it now, and the others leave the cache alone. -/
structure Memoizes (step : σ → ρ → σ) (cache : σ → RecentCache κ α)
    (question : ρ → σ → Option (κ × Except ε α)) : Prop where
  asks : ∀ s r k found, question r s = some (k, found) →
    cache (step s r) = ((cache s).consult k found).2
  leaves : ∀ s r, question r s = none → cache (step s r) = cache s

variable {step : σ → ρ → σ} {cache : σ → RecentCache κ α}
  {question : ρ → σ → Option (κ × Except ε α)} {s : σ}

theorem Memoizes.distinct (h : Memoizes step cache question) (hs : (cache s).Distinct)
    (rs : List ρ) : (cache (rs.foldl step s)).Distinct := by
  induction rs generalizing s with
  | nil => exact hs
  | cons r rs ih =>
    refine ih ?_
    cases hquestion : question r s with
    | none => rwa [h.leaves s r hquestion]
    | some q =>
      rw [h.asks s r q.1 q.2 hquestion]
      exact distinct_consult hs q.1 q.2

/-- What is remembered after a run from an empty cache was found by a question in it that missed the
key, and has been remembered ever since. -/
theorem Memoizes.exists_miss (h : Memoizes step cache question) {capacity : Nat}
    (hs : cache s = .empty capacity) {rs : List ρ}
    (hpeek : (cache (rs.foldl step s)).peek? k = some v) :
    ∃ front r back, rs = front ++ r :: back ∧
      question r (front.foldl step s) = some (k, .ok v) ∧
      (cache (front.foldl step s)).peek? k = none ∧
      ∀ mid, mid <+: back → (cache ((front ++ r :: mid).foldl step s)).peek? k = some v := by
  have hdistinct : (cache s).Distinct := by
    rw [hs]
    exact distinct_empty capacity
  induction rs using List.reverseRecOn with
  | nil =>
    rw [List.foldl_nil, hs] at hpeek
    cases hpeek
  | append_singleton rs r ih =>
    have hbefore := h.distinct hdistinct rs
    -- either the key was remembered in front of the last step, or that step is the one that missed it
    have hcases : (cache (rs.foldl step s)).peek? k = some v ∨
        ((cache (rs.foldl step s)).peek? k = none ∧
          question r (rs.foldl step s) = some (k, .ok v)) := by
      rw [List.foldl_concat] at hpeek
      cases hquestion : question r (rs.foldl step s) with
      | none =>
        rw [h.leaves _ r hquestion] at hpeek
        exact .inl hpeek
      | some q =>
        obtain ⟨k', found⟩ := q
        rw [h.asks _ r k' found hquestion] at hpeek
        rcases peek?_of_consult hbefore hpeek with hpeek | ⟨hnone, rfl, rfl⟩
        · exact .inl hpeek
        · exact .inr ⟨hnone, rfl⟩
    rcases hcases with hremembered | ⟨hnone, hquestion⟩
    · obtain ⟨front, r', back, rfl, hquestion, hnone, hsince⟩ := ih hremembered
      refine ⟨front, r', back ++ [r], by simp, hquestion, hnone, fun mid hmid => ?_⟩
      rcases List.prefix_concat_iff.1 hmid with rfl | hmid
      · rwa [List.append_assoc, List.cons_append] at hpeek
      · exact hsince mid hmid
    · refine ⟨rs, r, [], rfl, hquestion, hnone, fun mid hmid => ?_⟩
      rwa [List.prefix_nil.1 hmid]

/-- A question is answered with what was found for its key when the key was last missing, which may
be now. -/
theorem Memoizes.exists_answer (h : Memoizes step cache question) {capacity : Nat}
    (hs : cache s = .empty capacity) (rs : List ρ) {r : ρ} {found : Except ε α}
    (hquestion : question r (rs.foldl step s) = some (k, found)) :
    ∃ front r' back found', rs ++ [r] = front ++ r' :: back ∧
      question r' (front.foldl step s) = some (k, found') ∧
      (cache (front.foldl step s)).peek? k = none ∧
      (∀ mid, mid <+: back → mid ≠ back →
        (cache ((front ++ r' :: mid).foldl step s)).peek? k ≠ none) ∧
      ((cache (rs.foldl step s)).consult k found).1 = found' := by
  cases hpeek : (cache (rs.foldl step s)).peek? k with
  | none =>
    refine ⟨rs, r, [], found, rfl, hquestion, hpeek, fun mid hmid hne => ?_, ?_⟩
    · exact absurd (List.prefix_nil.1 hmid) hne
    · exact fst_consult_of_none hpeek
  | some v =>
    obtain ⟨front, r', back, rfl, hfound, hnone, hsince⟩ := h.exists_miss hs hpeek
    refine ⟨front, r', back ++ [r], .ok v, by simp, hfound, hnone, fun mid hmid hne => ?_, ?_⟩
    · rcases List.prefix_concat_iff.1 hmid with heq | hmid
      · exact absurd heq hne
      · rw [hsince mid hmid]
        exact Option.some_ne_none v
    · rw [consult_of_some hpeek]

end Run

end ContractModel.RecentCache
