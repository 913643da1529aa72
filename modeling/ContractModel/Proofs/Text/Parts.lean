import ContractModel.Text.Search

/-! # The parts of a text

Splitting at a character is undone by putting the character between the parts, and the parts of
texts that are put together are those of each, but for the two that meet. What stands behind a
text in which the character is found belongs to the part behind it.
-/

namespace ContractModel.Text

variable {separator : Char} {cs ds part : List Char}

theorem splitOnChar_separator (separator : Char) (cs : List Char) :
    splitOnChar separator (separator :: cs) = [] :: splitOnChar separator cs :=
  if_pos rfl

/-- Another character belongs to the first part. -/
theorem splitOnChar_cons {c : Char} (hc : c ≠ separator) {first : List Char}
    {rest : List (List Char)} (h : splitOnChar separator cs = first :: rest) :
    splitOnChar separator (c :: cs) = (c :: first) :: rest := by
  rw [splitOnChar, if_neg hc, h]

theorem splitOnChar_eq_splitOn (separator : Char) (cs : List Char) :
    splitOnChar separator cs = cs.splitOn separator := by
  induction cs with
  | nil => rfl
  | cons c cs ih =>
    rw [List.splitOn_cons_eq_if_modifyHead]
    by_cases hc : c = separator
    · subst hc
      rw [splitOnChar_separator, if_pos (beq_self_eq_true c), ih]
    · obtain ⟨first, rest, h⟩ := List.exists_cons_of_ne_nil (List.splitOn_ne_nil separator cs)
      rw [if_neg (by simpa using hc), splitOnChar_cons hc (ih.trans h), h, List.modifyHead_cons]

theorem splitOnChar_ne_nil (separator : Char) (cs : List Char) :
    splitOnChar separator cs ≠ [] := by
  rw [splitOnChar_eq_splitOn]
  exact List.splitOn_ne_nil separator cs

theorem splitOnChar_append_separator (cs ds : List Char) :
    splitOnChar separator (cs ++ separator :: ds) =
      splitOnChar separator cs ++ splitOnChar separator ds := by
  simp only [splitOnChar_eq_splitOn, List.splitOn_append_cons_self]

theorem splitOnChar_of_notMem (h : separator ∉ cs) : splitOnChar separator cs = [cs] := by
  rw [splitOnChar_eq_splitOn, List.splitOn_eq_singleton h]

/-- Splitting gives back what was put together. -/
theorem splitOnChar_intercalate {parts : List (List Char)} (hne : parts ≠ [])
    (h : ∀ part ∈ parts, separator ∉ part) :
    splitOnChar separator ([separator].intercalate parts) = parts := by
  rw [splitOnChar_eq_splitOn, List.splitOn_intercalate separator h hne]

theorem notMem_of_mem_splitOnChar (h : part ∈ splitOnChar separator cs) : separator ∉ part := by
  induction cs generalizing part with
  | nil =>
    rw [List.mem_singleton.1 h]
    exact List.not_mem_nil
  | cons c cs ih =>
    by_cases hc : c = separator
    · subst hc
      rw [splitOnChar_separator] at h
      rcases List.mem_cons.1 h with rfl | h
      · exact List.not_mem_nil
      · exact ih h
    · obtain ⟨first, rest, heq⟩ := List.exists_cons_of_ne_nil (splitOnChar_ne_nil separator cs)
      rw [splitOnChar_cons hc heq] at h
      rcases List.mem_cons.1 h with rfl | h
      · have hfirst := ih (heq ▸ List.mem_cons_self)
        simpa [Ne.symm hc] using hfirst
      · exact ih (heq ▸ List.mem_cons_of_mem _ h)

/-- A text without the character in front belongs to the first part. -/
theorem splitOnChar_append_left (h : separator ∉ ds) {first : List Char} {rest : List (List Char)}
    (hcs : splitOnChar separator cs = first :: rest) :
    splitOnChar separator (ds ++ cs) = (ds ++ first) :: rest := by
  induction ds with
  | nil => exact hcs
  | cons d ds ih =>
    rw [List.mem_cons, not_or] at h
    exact splitOnChar_cons (Ne.symm h.1) (ih h.2)

/-- A text without the character behind belongs to the last part. -/
theorem exists_splitOnChar_append (h : separator ∉ ds) (cs : List Char) :
    ∃ front last, splitOnChar separator cs = front ++ [last] ∧
      splitOnChar separator (cs ++ ds) = front ++ [last ++ ds] := by
  induction cs with
  | nil => exact ⟨[], [], rfl, splitOnChar_of_notMem h⟩
  | cons c cs ih =>
    obtain ⟨front, last, hcs, hds⟩ := ih
    rw [List.cons_append]
    by_cases hc : c = separator
    · subst hc
      exact ⟨[] :: front, last, by rw [splitOnChar_separator, hcs, List.cons_append],
        by rw [splitOnChar_separator, hds, List.cons_append]⟩
    · cases front with
      | nil => exact ⟨[], c :: last, splitOnChar_cons hc hcs, splitOnChar_cons hc hds⟩
      | cons first front =>
        exact ⟨(c :: first) :: front, last, splitOnChar_cons hc hcs, splitOnChar_cons hc hds⟩

section Once

variable {c : Char} {pattern s t front rest : String}

theorem splitFirst_singleton_cons (c d : Char) (cs : List Char) :
    splitFirst [c] (d :: cs) =
      if c = d then some ([], cs)
      else (splitFirst [c] cs).map fun (front, rest) => (d :: front, rest) := by
  have hprefix : List.isPrefixOf? [c] (d :: cs) = if c == d then some cs else none := rfl
  rw [splitFirst, hprefix]
  by_cases hd : c = d <;> simp [hd]

theorem splitFirst_singleton_eq_none_iff : splitFirst [c] cs = none ↔ c ∉ cs := by
  induction cs with
  | nil => simp [splitFirst]
  | cons d cs ih =>
    rw [splitFirst_singleton_cons]
    by_cases hd : c = d <;> simp [hd, ih]

theorem splitFirst_singleton_append {first last : List Char}
    (h : splitFirst [c] cs = some (first, last)) (ds : List Char) :
    splitFirst [c] (cs ++ ds) = some (first, last ++ ds) := by
  induction cs generalizing first with
  | nil => simp [splitFirst] at h
  | cons d cs ih =>
    rw [List.cons_append]
    rw [splitFirst_singleton_cons] at h ⊢
    by_cases hd : c = d
    · simp_all
    · rw [if_neg hd] at h ⊢
      obtain ⟨⟨front, rest⟩, hfront, heq⟩ := Option.map_eq_some_iff.1 h
      cases heq
      rw [ih hfront, Option.map_some]

theorem splitFirst_singleton_eq_some_iff {first last : List Char} :
    splitFirst [c] cs = some (first, last) ↔ cs = first ++ c :: last ∧ c ∉ first := by
  induction cs generalizing first last with
  | nil => simp [splitFirst]
  | cons d cs ih =>
    rw [splitFirst_singleton_cons]
    by_cases hd : c = d
    · subst hd
      cases first <;> simp +contextual [eq_comm]
    · rw [if_neg hd, Option.map_eq_some_iff]
      cases first with
      | nil => simp [Ne.symm hd]
      | cons e first =>
        simp only [Prod.exists, ih, Prod.mk.injEq, List.cons.injEq, List.cons_append,
          List.mem_cons, not_or]
        constructor
        · rintro ⟨_, _, ⟨hcs, hfirst⟩, ⟨rfl, rfl⟩, rfl⟩
          exact ⟨⟨rfl, hcs⟩, hd, hfirst⟩
        · rintro ⟨⟨rfl, hcs⟩, -, hfirst⟩
          exact ⟨first, last, ⟨hcs, hfirst⟩, ⟨rfl, rfl⟩, rfl⟩

/-- The first occurrence of a character is the one without another in front. -/
theorem splitOnce_eq_some_iff (hpattern : pattern.toList = [c]) :
    splitOnce pattern s = some (front, rest) ↔
      s = front ++ pattern ++ rest ∧ c ∉ front.toList := by
  rw [splitOnce, hpattern, Option.map_eq_some_iff, ← String.toList_inj]
  simp only [Prod.exists, splitFirst_singleton_eq_some_iff, Prod.mk.injEq, String.toList_append,
    hpattern, List.append_assoc, List.singleton_append]
  constructor
  · rintro ⟨first, last, hs, rfl, rfl⟩
    simpa using hs
  · intro hs
    exact ⟨_, _, hs, String.ofList_toList, String.ofList_toList⟩

theorem splitOnce_append_of_notMem (hpattern : pattern.toList = [c])
    (h : splitOnce pattern s = none) (ht : c ∉ t.toList) : splitOnce pattern (s ++ t) = none := by
  rw [splitOnce, hpattern, Option.map_eq_none_iff, splitFirst_singleton_eq_none_iff] at h ⊢
  simp [h, ht]

theorem splitOnce_append (hpattern : pattern.toList = [c])
    (h : splitOnce pattern s = some (front, rest)) (t : String) :
    splitOnce pattern (s ++ t) = some (front, rest ++ t) := by
  rw [splitOnce, hpattern] at h ⊢
  obtain ⟨⟨first, last⟩, hsplit, heq⟩ := Option.map_eq_some_iff.1 h
  obtain ⟨rfl, rfl⟩ := Prod.mk.inj heq
  simp [splitFirst_singleton_append hsplit]

end Once

end ContractModel.Text
