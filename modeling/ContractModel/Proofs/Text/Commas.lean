import Mathlib.Data.List.Forall2

/-! # Texts with commas between them

A list of texts can be read off the text that has commas between them, compared with another list
whose texts have as many commas or more.
-/

namespace ContractModel.Text

/-- The number of commas in a text. -/
def commas (s : String) : Nat := s.toList.count ','

theorem commas_append (s t : String) : commas (s ++ t) = commas s + commas t := by
  rw [commas, String.toList_append, List.count_append]
  rfl

theorem append_comma_injective {s s' t t' : String} (hs : commas s ≤ commas s')
    (ht : commas t ≤ commas t') (h : s ++ "," ++ t = s' ++ "," ++ t') : s = s' ∧ t = t' := by
  have hlist : s.toList ++ ',' :: t.toList = s'.toList ++ ',' :: t'.toList := by
    simpa [String.toList_append] using congrArg String.toList h
  have hcount := congrArg commas h
  simp only [commas_append] at hcount
  have hs' : commas s = commas s' := by omega
  have hs : s.toList = s'.toList := by
    rcases List.append_eq_append_iff.1 hlist with ⟨more, hmore, hrest⟩ | ⟨more, hmore, hrest⟩
    · cases more with
      | nil => rw [hmore, List.append_nil]
      | cons c more =>
        obtain ⟨rfl, -⟩ := List.cons.inj hrest
        simp [commas, hmore] at hs'
    · cases more with
      | nil => rw [hmore, List.append_nil]
      | cons c more =>
        obtain ⟨rfl, -⟩ := List.cons.inj hrest
        simp [commas, hmore] at hs'
  rw [hs, List.append_cancel_left_eq, List.cons.injEq] at hlist
  exact ⟨String.toList_inj.1 hs, String.toList_inj.1 hlist.2⟩

variable {ss ts : List String}

theorem commas_intercalate_le (h : List.Forall₂ (fun s t => commas s ≤ commas t) ss ts) :
    commas (String.intercalate "," ss) ≤ commas (String.intercalate "," ts) := by
  induction h with
  | nil => exact Nat.le_refl _
  | cons hst hrest ih =>
    cases hrest with
    | nil => simpa using hst
    | cons hst' hrest =>
      simp only [String.intercalate_cons_cons, commas_append] at ih ⊢
      omega

/-- Texts with commas between them are told apart if only one side has more commas. -/
theorem intercalate_injective (h : List.Forall₂ (fun s t => commas s ≤ commas t) ss ts)
    (heq : String.intercalate "," ss = String.intercalate "," ts) : ss = ts := by
  induction h with
  | nil => rfl
  | cons hst hrest ih =>
    cases hrest with
    | nil =>
      rw [String.intercalate_singleton, String.intercalate_singleton] at heq
      rw [heq]
    | cons hst' hrest =>
      rw [String.intercalate_cons_cons, String.intercalate_cons_cons] at heq
      obtain ⟨rfl, htail⟩ := append_comma_injective hst
        (commas_intercalate_le (.cons hst' hrest)) heq
      rw [ih htail]

end ContractModel.Text
