import ContractModel.Build.Collect
import ContractModel.Instrument.Copies
import ContractModel.Proofs.Path

/-! # Paths that only instrumenting uses

Instrumented copies, and what is saved of their compilation, have a name that begins in one way. A
path without such a name stays so in everything that a build makes of it.
-/

namespace ContractModel.Path

open Text

variable {path above directory more suffix : String} {name : List Char}
  {segments : List (List Char)}

/-- The name of an instrumented copy, or of something made from it. The underscore behind the prefix
of copies is left out: it may come from the number that is put behind another name. -/
def IsHidden (name : List Char) : Prop := "autoFinder".toList <+: name

instance (name : List Char) : Decidable (IsHidden name) :=
  inferInstanceAs (Decidable (_ <+: name))

/-- No name on the path is hidden. -/
def Visible (path : String) : Prop := ∀ name ∈ splitOnChar '/' path.toList, ¬ IsHidden name

instance (path : String) : Decidable (Visible path) :=
  inferInstanceAs (Decidable (∀ name ∈ _, ¬ _))

/-- The last name on the path is hidden. -/
def EndsHidden (path : String) : Prop :=
  ∃ front name, splitOnChar '/' path.toList = front ++ [name] ∧ IsHidden name

theorem not_isHidden_nil : ¬ IsHidden [] := by decide

theorem not_isHidden_cons {c : Char} (hc : c ≠ 'a') (cs : List Char) : ¬ IsHidden (c :: cs) :=
  fun h => hc (List.cons_prefix_cons.1 h).1.symm

theorem IsHidden.append (h : IsHidden name) (rest : List Char) : IsHidden (name ++ rest) :=
  h.trans (List.prefix_append _ _)

/-- What is put behind a name with an underscore does not hide it. -/
theorem not_isHidden_append (h : ¬ IsHidden name) (rest : List Char) :
    ¬ IsHidden (name ++ '_' :: rest) := by
  intro hidden
  rcases List.prefix_or_prefix_of_prefix hidden (List.prefix_append name _) with hname | ⟨ds, hds⟩
  · exact h hname
  · unfold IsHidden at hidden
    rw [← hds, List.prefix_append_right_inj] at hidden
    cases ds with
    | nil =>
      rw [List.append_nil] at hds
      exact h (hds ▸ List.prefix_rfl)
    | cons d ds =>
      obtain rfl : d = '_' := (List.cons_prefix_cons.1 hidden).1
      have hmem : '_' ∈ "autoFinder".toList := hds ▸ List.mem_append_right _ List.mem_cons_self
      exact absurd hmem (by decide)

section Segments

theorem visible_joinSegments (h : ∀ segment ∈ segments, '/' ∉ segment ∧ ¬ IsHidden segment) :
    Visible (String.ofList (joinSegments segments)) := by
  intro name hname
  rw [String.toList_ofList] at hname
  unfold joinSegments at hname
  split at hname
  · have hnil : name = [] := by simpa [splitOnChar] using hname
    rw [hnil]
    exact not_isHidden_nil
  · by_cases hne : segments = []
    · subst hne
      rw [List.mem_singleton.1 hname]
      exact not_isHidden_nil
    · rw [splitOnChar_intercalate hne fun segment hsegment => (h segment hsegment).1] at hname
      exact (h name hname).2

end Segments

section Visible

theorem visible_of_slashFree {s : String} (hs : '/' ∉ s.toList) (h : ¬ IsHidden s.toList) :
    Visible s := by
  intro name hname
  rw [splitOnChar_of_notMem hs, List.mem_singleton] at hname
  rwa [hname]

theorem Visible.append (h : Visible directory) (hmore : Visible more) :
    Visible (Path.append directory more) := by
  obtain ⟨front, hfront, heq⟩ := exists_splitOnChar_pathAppend directory more
  intro name hname
  rw [heq] at hname
  rcases List.mem_append.1 hname with hname | hname
  · exact h name (hfront name hname)
  · exact hmore name hname

/-- What is put behind a path with an underscore does not hide it. -/
theorem Visible.append_underscore (h : Visible path) (hsuffix : '/' ∉ suffix.toList) :
    Visible (path ++ "_" ++ suffix) := by
  have hslash : '/' ∉ '_' :: suffix.toList := by simpa using hsuffix
  obtain ⟨front, last, hpath, happend⟩ := exists_splitOnChar_append hslash path.toList
  have hlist : (path ++ "_" ++ suffix).toList = path.toList ++ '_' :: suffix.toList := by simp
  intro name hname
  rw [hlist, happend] at hname
  unfold Visible at h
  rw [hpath] at h
  rcases List.mem_append.1 hname with hname | hname
  · exact h name (List.mem_append_left _ hname)
  · rw [List.mem_singleton.1 hname]
    exact not_isHidden_append (h last (List.mem_append_right _ (List.mem_singleton_self _))) _

/-- What is put in front of a path does not hide it unless it is hidden. -/
theorem Visible.append_left {c : Char} {front : List Char} (h : Visible path) (hc : c ≠ 'a')
    (hfront : '/' ∉ c :: front) : Visible (String.ofList (c :: front) ++ path) := by
  obtain ⟨first, rest, hpath⟩ := List.exists_cons_of_ne_nil (splitOnChar_ne_nil '/' path.toList)
  intro name hname
  rw [String.toList_append, String.toList_ofList, splitOnChar_append_left hfront hpath] at hname
  rcases List.mem_cons.1 hname with rfl | hname
  · exact not_isHidden_cons hc _
  · exact h name (hpath ▸ List.mem_cons_of_mem _ hname)

theorem Visible.parent (h : Visible path) (habove : parent? path = some above) :
    Visible above := by
  have hparts : ∀ segment ∈ dropTrivial (splitOnChar '/' path.toList),
      '/' ∉ segment ∧ ¬ IsHidden segment := fun segment hsegment =>
    ⟨notMem_of_mem_splitOnChar (mem_dropTrivial hsegment), h segment (mem_dropTrivial hsegment)⟩
  unfold parent? at habove
  split at habove
  · cases habove
  · cases habove
  · cases habove
    exact visible_of_slashFree (by simp) not_isHidden_nil
  · cases habove
    refine visible_joinSegments fun segment hsegment => hparts segment ?_
    exact List.dropLast_subset _ (mem_dropTrivial hsegment)

theorem visible_of_mem_lineage (h : Visible path) (habove : above ∈ lineage path) :
    Visible above := by
  unfold lineage at habove
  generalize path.length + 1 = count at habove
  induction count generalizing path with
  | zero => cases habove
  | succ count ih =>
    unfold upwards at habove
    split at habove
    · cases habove
    · next parent hparent =>
      rcases List.mem_cons.1 habove with rfl | habove
      · exact h
      · exact ih (h.parent hparent) habove

/-- The name of a path is one of its segments; a path without a name stands for itself. -/
theorem Visible.nameOf (h : Visible path) : Visible (Collect.nameOf path) := by
  unfold Collect.nameOf
  cases hname : fileName? path with
  | none => exact h
  | some s =>
    refine visible_of_slashFree (slash_notMem_of_fileName? hname) ?_
    obtain ⟨segment, hsegment, rfl⟩ := exists_segment_of_fileName? hname
    rw [Option.getD_some, String.toList_ofList]
    exact h segment hsegment

theorem notMem_decimal {c : Char} (hc : isDecimalDigit c = false) (n : Nat) :
    c ∉ (decimal n).toList := by
  rw [decimal, String.toList_ofList]
  intro hmem
  obtain ⟨d, hd, rfl⟩ := exists_of_mem_digits (by decide) hmem
  exact absurd (isDecimalDigit_digitChar d hd) (by simp [hc])

theorem slash_notMem_decimal (n : Nat) : '/' ∉ (decimal n).toList :=
  notMem_decimal (by decide) n

/-- The name of a copy in the report begins with a digit. -/
theorem Visible.reportCopy (h : Visible path) (id : Nat) :
    Visible (decimal id ++ "_" ++ Collect.nameOf path) := by
  obtain ⟨c, cs, hdigits⟩ := List.exists_cons_of_ne_nil (digits_ne_nil 10 id)
  have hc : c ≠ 'a' := by
    rintro rfl
    obtain ⟨d, hd, ha⟩ := exists_of_mem_digits (by decide) (hdigits ▸ List.mem_cons_self)
    have hdigit := isDecimalDigit_digitChar d hd
    rw [ha] at hdigit
    exact absurd hdigit (by decide)
  have hfront : decimal id ++ "_" = String.ofList (c :: (cs ++ ['_'])) := by
    apply String.toList_injective
    simp [decimal, hdigits]
  rw [hfront]
  refine h.nameOf.append_left hc ?_
  have hslash := slash_notMem_decimal id
  rw [decimal, String.toList_ofList, hdigits] at hslash
  simpa using hslash

end Visible

section Hidden

theorem endsHidden_append {s : String} (hs : '/' ∉ s.toList) (h : IsHidden s.toList) :
    EndsHidden (Path.append directory s) := by
  obtain ⟨front, -, heq⟩ := exists_splitOnChar_pathAppend directory s
  rw [splitOnChar_of_notMem hs] at heq
  exact ⟨front, s.toList, heq, h⟩

/-- The copy of a source has a hidden name. -/
theorem endsHidden_pathOf (path : String) : EndsHidden (Copies.pathOf path) := by
  have hname : '/' ∉ ((fileName? path).getD "").toList := by
    cases hname : fileName? path with
    | none => exact List.not_mem_nil
    | some s => exact slash_notMem_of_fileName? hname
  have hslash : '/' ∉ (Copies.namePrefix ++ (fileName? path).getD "").toList := by
    rw [String.toList_append, List.mem_append, not_or]
    exact ⟨by decide, hname⟩
  have hhidden : IsHidden (Copies.namePrefix ++ (fileName? path).getD "").toList := by
    have hprefix : IsHidden Copies.namePrefix.toList := by decide
    rw [String.toList_append]
    exact hprefix.append _
  unfold Copies.pathOf withFileName
  split
  · exact endsHidden_append hslash hhidden
  · exact endsHidden_append hslash hhidden

/-- A hidden name is the name of its path. -/
theorem EndsHidden.nameOf (h : EndsHidden path) :
    '/' ∉ (Collect.nameOf path).toList ∧ IsHidden (Collect.nameOf path).toList := by
  obtain ⟨front, name, hpath, hhidden⟩ := h
  have hne : name ≠ [] := by
    rintro rfl
    exact not_isHidden_nil hhidden
  have hdots : ¬ (name = ['.'] ∨ name = ['.', '.']) := by
    rintro (rfl | rfl) <;> exact absurd hhidden (by decide)
  have hmem : name ∈ splitOnChar '/' path.toList :=
    hpath ▸ List.mem_append_right _ (List.mem_singleton_self name)
  have hplain : Plain name :=
    ⟨notMem_of_mem_splitOnChar hmem, hne, fun h => hdots (.inl h), fun h => hdots (.inr h)⟩
  rw [Collect.nameOf, fileName?_of_segments hpath hplain, Option.getD_some, String.toList_ofList]
  exact ⟨hplain.slash, hhidden⟩

end Hidden

end ContractModel.Path
