import ContractModel.Types.SourceType

/-! # Agreement of source types

Declared types agree by their canonical names, all others by their type strings. With one key for
all three, agreement passes on from type to type; a type that is not declared may connect two
declared ones by the other key, or be connected to only one of them.
-/

namespace ContractModel

/-- A relation that is an equivalence but for exceptions to its transitivity. -/
structure EquivalenceBut {α : Type} (r : α → α → Prop) (exception : α → α → α → Prop) :
    Prop where
  refl (a : α) : r a a
  symm {a b : α} : r a b → r b a
  trans_iff {a b c : α} : r a b → r b c → (r a c ↔ ¬ exception a b c)

namespace SourceType

/-- Two declared types that share either their canonical name or their type string, but not both. -/
def HalfSame (s t : SourceType) : Prop :=
  ∃ i ∈ s.identity?, ∃ j ∈ t.identity?,
    ¬ (i.canonicalName = j.canonicalName ↔ s.typeString = t.typeString)

instance (s t : SourceType) : Decidable (HalfSame s t) :=
  inferInstanceAs (Decidable (∃ i ∈ s.identity?, ∃ j ∈ t.identity?,
    ¬ (i.canonicalName = j.canonicalName ↔ s.typeString = t.typeString)))

/-- Exactly one of three types is not declared, and the declared ones are half the same. -/
def Confused (s t u : SourceType) : Prop :=
  s.identity? = none ∧ HalfSame t u ∨ t.identity? = none ∧ HalfSame s u ∨
    u.identity? = none ∧ HalfSame s t

instance (s t u : SourceType) : Decidable (Confused s t u) :=
  inferInstanceAs (Decidable (s.identity? = none ∧ HalfSame t u ∨
    t.identity? = none ∧ HalfSame s u ∨ u.identity? = none ∧ HalfSame s t))

variable {s t u : SourceType}

theorem agrees_symm (h : s.agrees t) : t.agrees s := by
  unfold agrees at h ⊢
  cases hs : s.identity? <;> cases ht : t.identity? <;> simp_all

theorem agrees_trans_iff (hst : s.agrees t) (htu : t.agrees u) :
    s.agrees u ↔ ¬ Confused s t u := by
  unfold agrees at hst htu ⊢
  -- one key decides on all three unless two are declared and one is not; then the type string
  -- decides on two of the pairs, and the declared pair is half the same if it differs there
  cases hs : s.identity? <;> cases ht : t.identity? <;> cases hu : u.identity? <;>
    simp_all [Confused, HalfSame]

end SourceType

end ContractModel
