/-! # Stable sorting

Insertion sort: an element goes in front of the first one that it may precede, so elements that may
precede each other keep their order.
-/

namespace ContractModel.Sorting

variable {α : Type}

/-- Puts an element in its place. -/
def insert (le : α → α → Bool) (a : α) : List α → List α
  | [] => [a]
  | b :: bs => if le a b then a :: b :: bs else b :: insert le a bs

/-- The elements in order. -/
def sort (le : α → α → Bool) (as : List α) : List α := as.foldr (insert le) []

variable {le : α → α → Bool}

theorem insert_perm (a : α) (bs : List α) : (insert le a bs).Perm (a :: bs) := by
  induction bs with
  | nil => exact .refl _
  | cons b bs ih =>
    unfold insert
    split
    · exact .refl _
    · exact (ih.cons b).trans (.swap a b bs)

theorem sort_perm (as : List α) : (sort le as).Perm as := by
  induction as with
  | nil => exact .refl _
  | cons a as ih => exact (insert_perm a _).trans (ih.cons a)

theorem mem_sort {a : α} {as : List α} : a ∈ sort le as ↔ a ∈ as := (sort_perm as).mem_iff

theorem pairwise_insert (total : ∀ a b, le a b ∨ le b a)
    (trans : ∀ a b c, le a b → le b c → le a c) {a : α} {bs : List α}
    (h : bs.Pairwise fun x y => le x y) : (insert le a bs).Pairwise fun x y => le x y := by
  induction bs with
  | nil => simp [insert]
  | cons b bs ih =>
    obtain ⟨hb, hbs⟩ := List.pairwise_cons.1 h
    unfold insert
    split
    · next hab =>
      refine List.pairwise_cons.2 ⟨fun x hx => ?_, h⟩
      rcases List.mem_cons.1 hx with rfl | hx
      · exact hab
      · exact trans _ _ _ hab (hb x hx)
    · next hab =>
      refine List.pairwise_cons.2 ⟨fun x hx => ?_, ih hbs⟩
      rcases List.mem_cons.1 ((insert_perm a bs).mem_iff.1 hx) with rfl | hx
      · exact (total _ _).resolve_left hab
      · exact hb x hx

/-- A total and transitive order makes the result ascending. -/
theorem pairwise_sort (total : ∀ a b, le a b ∨ le b a)
    (trans : ∀ a b c, le a b → le b c → le a c) (as : List α) :
    (sort le as).Pairwise fun x y => le x y := by
  induction as with
  | nil => exact .nil
  | cons a as ih => exact pairwise_insert total trans ih

end ContractModel.Sorting
