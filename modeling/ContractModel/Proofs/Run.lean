import ContractModel.SortedMap
import Mathlib.Data.List.Forall2

/-! # Runs that may fail

A run goes well exactly when each of its steps does, with and without a state, and what every step
of a loop keeps holds in the end.
-/

namespace ContractModel.Run

variable {ε σ α β : Type}

theorem except_bind_eq_ok_iff {x : Except ε α} {f : α → Except ε β} {b : β} :
    x >>= f = .ok b ↔ ∃ a, x = .ok a ∧ f a = .ok b := by
  cases x with
  | error e =>
    constructor
    · rintro ⟨⟩
    · rintro ⟨_, ⟨⟩, _⟩
  | ok a =>
    constructor
    · intro h
      exact ⟨a, rfl, h⟩
    · rintro ⟨_, ⟨⟩, h⟩
      exact h

theorem map_eq_ok_iff {x : Except ε α} {f : α → β} {b : β} :
    f <$> x = .ok b ↔ ∃ a, x = .ok a ∧ f a = b := by
  cases x with
  | error e =>
    constructor
    · rintro ⟨⟩
    · rintro ⟨_, ⟨⟩, _⟩
  | ok a =>
    constructor
    · rintro ⟨⟩
      exact ⟨a, rfl, rfl⟩
    · rintro ⟨_, ⟨⟩, rfl⟩
      rfl

theorem toOption_eq_some_iff {x : Except ε α} {a : α} : x.toOption = some a ↔ x = .ok a := by
  cases x <;> simp [Except.toOption]

theorem forall₂_of_mapM_eq_ok {f : α → Except ε β} {as : List α} {bs : List β}
    (h : as.mapM f = .ok bs) : List.Forall₂ (fun a b => f a = .ok b) as bs := by
  induction as generalizing bs with
  | nil =>
    cases h
    exact .nil
  | cons a as ih =>
    rw [List.mapM_cons] at h
    obtain ⟨b, hb, h⟩ := except_bind_eq_ok_iff.1 h
    obtain ⟨bs, hbs, h⟩ := except_bind_eq_ok_iff.1 h
    cases h
    exact .cons hb (ih hbs)

theorem exists_of_mem_forall₂ {R : α → β → Prop} {as : List α} {bs : List β} {a : α}
    (h : List.Forall₂ R as bs) (ha : a ∈ as) : ∃ b ∈ bs, R a b := by
  induction h with
  | nil => cases ha
  | cons hab _ ih =>
    rcases List.mem_cons.1 ha with rfl | ha
    · exact ⟨_, List.mem_cons_self, hab⟩
    · obtain ⟨b, hb, hab⟩ := ih ha
      exact ⟨b, List.mem_cons_of_mem _ hb, hab⟩

/-- Where one list is cut, the other can be cut. -/
theorem exists_cut_of_forall₂ {R : α → β → Prop} {front rest : List α} {a : α} {bs : List β}
    (h : List.Forall₂ R (front ++ a :: rest) bs) : ∃ front' b rest',
      bs = front' ++ b :: rest' ∧ R a b ∧ List.Forall₂ R rest rest' := by
  induction front generalizing bs with
  | nil =>
    obtain ⟨b, rest', hab, hrest, rfl⟩ := List.forall₂_cons_left_iff.1 h
    exact ⟨[], b, rest', rfl, hab, hrest⟩
  | cons a' front ih =>
    obtain ⟨b', bs', -, hbs, rfl⟩ := List.forall₂_cons_left_iff.1 h
    obtain ⟨front', b, rest', rfl, hab, hrest⟩ := ih hbs
    exact ⟨b' :: front', b, rest', rfl, hab, hrest⟩

theorem exists_of_mem_mapM {f : α → Except ε β} {as : List α} {bs : List β} {b : β}
    (h : as.mapM f = .ok bs) (hb : b ∈ bs) : ∃ a ∈ as, f a = .ok b :=
  exists_of_mem_forall₂ (R := fun b a => f a = .ok b) (forall₂_of_mapM_eq_ok h).flip hb

/-- A loop fails where one of its steps does. -/
theorem exists_of_mapM_eq_error {f : α → Except ε β} {as : List α} {e : ε}
    (h : as.mapM f = .error e) : ∃ a ∈ as, f a = .error e := by
  induction as with
  | nil => cases h
  | cons a as ih =>
    rw [List.mapM_cons] at h
    cases ha : f a with
    | error e' =>
      rw [ha] at h
      cases h
      exact ⟨a, List.mem_cons_self, ha⟩
    | ok b =>
      cases has : as.mapM f with
      | error e' =>
        rw [ha, has] at h
        cases h
        obtain ⟨a', ha', he⟩ := ih has
        exact ⟨a', List.mem_cons_of_mem a ha', he⟩
      | ok bs =>
        rw [ha, has] at h
        cases h

theorem run_bind (x : ExceptT ε (StateM σ) α) (f : α → ExceptT ε (StateM σ) β) (s : σ) :
    (x >>= f).run.run s = match x.run.run s with
      | (.ok a, t) => (f a).run.run t
      | (.error e, t) => (.error e, t) := by
  simp only [ExceptT.run_bind, StateT.run_bind]
  rcases x.run.run s with ⟨_ | _, _⟩ <;> rfl

theorem bind_eq_ok_iff {x : ExceptT ε (StateM σ) α} {f : α → ExceptT ε (StateM σ) β} {s s' : σ}
    {b : β} : (x >>= f).run.run s = (.ok b, s') ↔
      ∃ a t, x.run.run s = (.ok a, t) ∧ (f a).run.run t = (.ok b, s') := by
  rw [run_bind]
  rcases x.run.run s with ⟨_ | a, t⟩
  · constructor
    · rintro ⟨⟩
    · rintro ⟨_, _, ⟨⟩, _⟩
  · constructor
    · intro h
      exact ⟨a, t, rfl, h⟩
    · rintro ⟨_, _, ⟨⟩, h⟩
      exact h

theorem pure_eq_ok_iff {a b : α} {s s' : σ} :
    (pure a : ExceptT ε (StateM σ) α).run.run s = (.ok b, s') ↔ a = b ∧ s = s' := by
  constructor
  · rintro ⟨⟩
    exact ⟨rfl, rfl⟩
  · rintro ⟨rfl, rfl⟩
    rfl

theorem run_get_bind {s : σ} (f : σ → ExceptT ε (StateM σ) α) :
    (get >>= f).run.run s = (f s).run.run s := rfl

theorem run_modify_bind {s : σ} (change : σ → σ) (f : PUnit → ExceptT ε (StateM σ) α) :
    (modify change >>= f).run.run s = (f ⟨⟩).run.run (change s) := rfl

theorem ofExcept_eq_ok_iff {x : Except ε α} {a : α} {s s' : σ} :
    (ofExcept x : ExceptT ε (StateM σ) α).run.run s = (.ok a, s') ↔ x = .ok a ∧ s = s' := by
  cases x with
  | error e =>
    constructor
    · rintro ⟨⟩
    · rintro ⟨⟨⟩, _⟩
  | ok b =>
    rw [Except.ok.injEq]
    exact pure_eq_ok_iff

theorem exists_of_map_eq_some {x : ExceptT ε (StateM σ) α} {g : α → β} {s : σ} {b : β}
    (h : (x.run.run s).1.toOption.map g = some b) :
    ∃ a s', x.run.run s = (.ok a, s') ∧ g a = b := by
  rcases hx : x.run.run s with ⟨_ | a, s'⟩
  · rw [hx] at h
    cases h
  · rw [hx] at h
    exact ⟨a, s', rfl, Option.some.inj h⟩

instance decidableForallOk (r : Except ε α) (P : α → Prop) [∀ a, Decidable (P a)] :
    Decidable (∀ a, r = .ok a → P a) :=
  match r with
  | .error _ => isTrue nofun
  | .ok a => decidable_of_iff (P a)
      ⟨fun h _ ha => Except.ok.inj ha ▸ h, fun h => h a rfl⟩

instance decidableForallRun (run : Except ε α × σ) (P : α → σ → Prop)
    [∀ a s, Decidable (P a s)] : Decidable (∀ a s, run = (.ok a, s) → P a s) :=
  decidable_of_iff (∀ a, run.1 = .ok a → P a run.2) <| by
    constructor
    · rintro h a s rfl
      exact h a rfl
    · exact fun h a ha => h a run.2 (Prod.ext ha rfl)

/-- What each step of a loop keeps holds after the loop. -/
theorem foldlM_invariant {step : β → α → ExceptT ε (StateM σ) β} (I : β → σ → Prop)
    (hstep : ∀ a b s b' s', I b s → (step b a).run.run s = (.ok b', s') → I b' s')
    {as : List α} {b b' : β} {s s' : σ} (hI : I b s)
    (h : (as.foldlM step b).run.run s = (.ok b', s')) : I b' s' := by
  induction as generalizing b s with
  | nil =>
    obtain ⟨rfl, rfl⟩ := pure_eq_ok_iff.1 h
    exact hI
  | cons a as ih =>
    rw [List.foldlM_cons, bind_eq_ok_iff] at h
    obtain ⟨c, t, hc, h⟩ := h
    exact ih (hstep a b s c t hI hc) h

/-- Where each step keeps what holds of the state, all steps of a run start from such a state. -/
theorem mapM_invariant {f : α → ExceptT ε (StateM σ) β} (I : σ → Prop) {R : α → β → Prop}
    (hstep : ∀ a b s s', I s → (f a).run.run s = (.ok b, s') → I s' ∧ R a b)
    {as : List α} {bs : List β} {s s' : σ} (hI : I s)
    (h : (as.mapM f).run.run s = (.ok bs, s')) : I s' ∧ List.Forall₂ R as bs := by
  induction as generalizing bs s with
  | nil =>
    obtain ⟨rfl, rfl⟩ := pure_eq_ok_iff.1 h
    exact ⟨hI, .nil⟩
  | cons a as ih =>
    rw [List.mapM_cons, bind_eq_ok_iff] at h
    obtain ⟨b, t, hb, h⟩ := h
    obtain ⟨ht, hR⟩ := hstep a b s t hI hb
    obtain ⟨bs, t', hbs, h⟩ := bind_eq_ok_iff.1 h
    obtain ⟨rfl, rfl⟩ := pure_eq_ok_iff.1 h
    obtain ⟨ht', hall⟩ := ih ht hbs
    exact ⟨ht', .cons hR hall⟩

end ContractModel.Run
