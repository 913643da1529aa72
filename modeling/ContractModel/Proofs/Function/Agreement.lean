import ContractModel.Function.Basic
import ContractModel.Proofs.Types.Agreement

/-! # Functions that are the same internally

Functions of one name are compared type by type, so they inherit what agreement of types is: being
the same internally passes on over a second function unless some place of the arguments or results
has types that are confused.
-/

namespace ContractModel.ContractFunction

variable {f g k : ContractFunction} {s t u : ParameterType} {ss ts us : List ParameterType}

/-- Some place of three lists has types that are confused. -/
def ConfusedAt (ss ts us : List ParameterType) : Prop :=
  ∃ (n : Nat) (s t u : ParameterType), ss[n]? = some s ∧ ts[n]? = some t ∧ us[n]? = some u ∧
    SourceType.Confused s.sourceType t.sourceType u.sourceType

def Confused (f g k : ContractFunction) : Prop :=
  ConfusedAt f.arguments g.arguments k.arguments ∨ ConfusedAt f.results g.results k.results

theorem confusedAt_cons_iff : ConfusedAt (s :: ss) (t :: ts) (u :: us) ↔
    SourceType.Confused s.sourceType t.sourceType u.sourceType ∨ ConfusedAt ss ts us := by
  constructor
  · rintro ⟨_ | n, s', t', u', hs, ht, hu, hconfused⟩
    · cases hs
      cases ht
      cases hu
      exact .inl hconfused
    · exact .inr ⟨n, s', t', u', hs, ht, hu, hconfused⟩
  · rintro (hconfused | ⟨n, s', t', u', hs, ht, hu, hconfused⟩)
    · exact ⟨0, s, t, u, rfl, rfl, rfl, hconfused⟩
    · exact ⟨n + 1, s', t', u', hs, ht, hu, hconfused⟩

theorem typesAgree_cons_iff :
    typesAgree (s :: ss) (t :: ts) ↔ s.sourceType.agrees t.sourceType ∧ typesAgree ss ts := by
  simp [typesAgree]

theorem typesAgree_refl (ts : List ParameterType) : typesAgree ts ts := by
  induction ts with
  | nil => rfl
  | cons t ts ih => simp [typesAgree_cons_iff, ih]

theorem typesAgree_symm (h : typesAgree ss ts) : typesAgree ts ss := by
  induction ss generalizing ts with
  | nil =>
    cases ts with
    | nil => rfl
    | cons t ts => cases h
  | cons s ss ih =>
    cases ts with
    | nil => cases h
    | cons t ts =>
      obtain ⟨hst, hrest⟩ := typesAgree_cons_iff.1 h
      exact typesAgree_cons_iff.2 ⟨SourceType.agrees_symm hst, ih hrest⟩

theorem typesAgree_trans_iff (hst : typesAgree ss ts) (htu : typesAgree ts us) :
    typesAgree ss us ↔ ¬ ConfusedAt ss ts us := by
  induction ts generalizing ss us with
  | nil =>
    cases ss with
    | nil =>
      cases us with
      | nil => simp [ConfusedAt, typesAgree]
      | cons u us => cases htu
    | cons s ss => cases hst
  | cons t ts ih =>
    cases ss with
    | nil => cases hst
    | cons s ss =>
      cases us with
      | nil => cases htu
      | cons u us =>
        obtain ⟨hst, hleft⟩ := typesAgree_cons_iff.1 hst
        obtain ⟨htu, hright⟩ := typesAgree_cons_iff.1 htu
        rw [typesAgree_cons_iff, confusedAt_cons_iff, not_or, ih hleft hright,
          SourceType.agrees_trans_iff hst htu]

theorem sameInternally_iff : f.sameInternally g ↔
    f.name = g.name ∧ typesAgree f.arguments g.arguments ∧ typesAgree f.results g.results := by
  simp [sameInternally, and_assoc]

theorem sameInternally_refl (f : ContractFunction) : f.sameInternally f :=
  sameInternally_iff.2 ⟨rfl, typesAgree_refl f.arguments, typesAgree_refl f.results⟩

theorem sameInternally_symm (h : f.sameInternally g) : g.sameInternally f := by
  obtain ⟨hname, harguments, hresults⟩ := sameInternally_iff.1 h
  exact sameInternally_iff.2 ⟨hname.symm, typesAgree_symm harguments, typesAgree_symm hresults⟩

theorem not_sameInternally_symm (h : ¬ f.sameInternally g) : ¬ g.sameInternally f :=
  mt sameInternally_symm h

theorem sameInternally_trans_iff (hfg : f.sameInternally g) (hgk : g.sameInternally k) :
    f.sameInternally k ↔ ¬ Confused f g k := by
  obtain ⟨hname, harguments, hresults⟩ := sameInternally_iff.1 hfg
  obtain ⟨hname', harguments', hresults'⟩ := sameInternally_iff.1 hgk
  rw [sameInternally_iff, Confused, not_or, typesAgree_trans_iff harguments harguments',
    typesAgree_trans_iff hresults hresults']
  simp [hname, hname']

end ContractModel.ContractFunction
