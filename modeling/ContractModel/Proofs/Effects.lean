import ContractModel.Proofs.Run

/-! # What actions leave alone, and how they fail

An action changes the state also if it fails. A view of the state that no step of an action changes
is kept by the whole action, whatever comes of it, and the faults of an action are those of its
steps.
-/

namespace ContractModel.Run

variable {ε σ τ α β : Type} {view : σ → τ} {kind : ε → Prop} {s s' : σ}

theorem bind_eq_error_iff {x : ExceptT ε (StateM σ) α} {f : α → ExceptT ε (StateM σ) β} {e : ε} :
    (x >>= f).run.run s = (.error e, s') ↔ x.run.run s = (.error e, s') ∨
      ∃ a t, x.run.run s = (.ok a, t) ∧ (f a).run.run t = (.error e, s') := by
  rw [run_bind]
  rcases x.run.run s with ⟨_ | a, t⟩
  · constructor
    · rintro ⟨⟩
      exact .inl rfl
    · rintro (⟨⟨⟩⟩ | ⟨_, _, ⟨⟩, _⟩)
      rfl
  · constructor
    · intro h
      exact .inr ⟨a, t, rfl, h⟩
    · rintro (⟨⟨⟩⟩ | ⟨_, _, ⟨⟩, h⟩)
      exact h

theorem run_tryCatch (x : ExceptT ε (StateM σ) α) (handler : ε → ExceptT ε (StateM σ) α) (s : σ) :
    (tryCatch x handler).run.run s = match x.run.run s with
      | (.ok a, t) => (.ok a, t)
      | (.error e, t) => (handler e).run.run t := by
  change StateT.run (ExceptT.tryCatch x handler) s = _
  unfold ExceptT.tryCatch
  simp only [ExceptT.mk, StateT.run_bind]
  rcases hx : x.run.run s with ⟨e | a, t⟩
  · rw [show StateT.run x s = (.error e, t) from hx]
    rfl
  · rw [show StateT.run x s = (.ok a, t) from hx]
    rfl

section Keeps

variable {x : ExceptT ε (StateM σ) α} {f : α → ExceptT ε (StateM σ) β}

/-- However the action ends, what is seen of the state is what was seen before. -/
def Keeps (view : σ → τ) (x : ExceptT ε (StateM σ) α) : Prop :=
  ∀ s, view (x.run.run s).2 = view s

theorem Keeps.eq (h : Keeps view x) {r : Except ε α} (hrun : x.run.run s = (r, s')) :
    view s' = view s := by
  have hs := h s
  rwa [hrun] at hs

theorem keeps_pure (a : α) : Keeps view (pure a : ExceptT ε (StateM σ) α) := fun _ => rfl

theorem keeps_throw (e : ε) : Keeps view (throw e : ExceptT ε (StateM σ) α) := fun _ => rfl

theorem keeps_ofExcept (r : Except ε α) :
    Keeps view (ofExcept r : ExceptT ε (StateM σ) α) := by
  cases r <;> exact fun _ => rfl

theorem keeps_modify {change : σ → σ} (h : ∀ s, view (change s) = view s) :
    Keeps view (modify change : ExceptT ε (StateM σ) PUnit) := h

theorem keeps_get : Keeps view (get : ExceptT ε (StateM σ) σ) := fun _ => rfl

theorem keeps_get_bind {g : σ → ExceptT ε (StateM σ) α}
    (h : ∀ s, view ((g s).run.run s).2 = view s) : Keeps view (get >>= g) := h

theorem Keeps.bind (hx : Keeps view x) (hf : ∀ a, Keeps view (f a)) : Keeps view (x >>= f) := by
  intro s
  have hs := hx s
  rw [run_bind]
  rcases hrun : x.run.run s with ⟨_ | a, t⟩
  · rwa [hrun] at hs
  · rw [hrun] at hs
    exact (hf a t).trans hs

theorem Keeps.tryCatch {handler : ε → ExceptT ε (StateM σ) α} (hx : Keeps view x)
    (hhandler : ∀ e, Keeps view (handler e)) : Keeps view (tryCatch x handler) := by
  intro s
  have hs := hx s
  rw [run_tryCatch]
  rcases hrun : x.run.run s with ⟨e | a, t⟩
  · rw [hrun] at hs
    exact (hhandler e t).trans hs
  · rwa [hrun] at hs

theorem Keeps.mapM {g : β → ExceptT ε (StateM σ) α} (h : ∀ b, Keeps view (g b)) (bs : List β) :
    Keeps view (bs.mapM g) := by
  induction bs with
  | nil => exact keeps_pure []
  | cons b bs ih =>
    rw [List.mapM_cons]
    exact (h b).bind fun a => ih.bind fun as => keeps_pure (a :: as)

theorem Keeps.foldlM {g : α → β → ExceptT ε (StateM σ) α} (h : ∀ a b, Keeps view (g a b))
    (bs : List β) (a : α) : Keeps view (bs.foldlM g a) := by
  induction bs generalizing a with
  | nil => exact keeps_pure a
  | cons b bs ih =>
    rw [List.foldlM_cons]
    exact (h a b).bind ih

theorem Keeps.forM {g : β → ExceptT ε (StateM σ) PUnit} (h : ∀ b, Keeps view (g b))
    (bs : List β) : Keeps view (bs.forM g) := by
  induction bs with
  | nil => exact keeps_pure PUnit.unit
  | cons b bs ih => exact (h b).bind fun _ => ih

end Keeps

section Ensures

variable {x : ExceptT ε (StateM σ) α} {f : α → ExceptT ε (StateM σ) β} {a : α} {I : σ → Prop}
  {Q : α → Prop} {R : β → Prop}

/-- Started in a state with the property, the action keeps it if it goes well, and the result is as
said. -/
def Ensures (I : σ → Prop) (x : ExceptT ε (StateM σ) α) (Q : α → Prop) : Prop :=
  ∀ s a s', I s → x.run.run s = (.ok a, s') → I s' ∧ Q a

theorem Keeps.ensures (h : Keeps view x) (v : τ) :
    Ensures (fun s => view s = v) x (fun _ => True) :=
  fun _ _ _ hs hrun => ⟨(h.eq hrun).trans hs, trivial⟩

theorem ensures_pure (h : Q a) :
    Ensures I (pure a : ExceptT ε (StateM σ) α) Q := by
  intro s b s' hs hrun
  obtain ⟨rfl, rfl⟩ := pure_eq_ok_iff.1 hrun
  exact ⟨hs, h⟩

theorem ensures_throw (e : ε) : Ensures I (throw e : ExceptT ε (StateM σ) α) Q := by
  rintro s b s' hs ⟨⟩

theorem ensures_get : Ensures I (get : ExceptT ε (StateM σ) σ) I := by
  rintro s _ s' hs ⟨⟩
  exact ⟨hs, hs⟩

theorem Ensures.elim (hrun : x.run.run s = (.ok a, s')) (hs : I s) (hx : Ensures I x Q) :
    I s' ∧ Q a :=
  hx s a s' hs hrun

theorem Ensures.imp {S : α → Prop} (hx : Ensures I x Q) (h : ∀ a, Q a → S a) : Ensures I x S :=
  fun s a s' hs hrun => (hx s a s' hs hrun).imp_right (h a)

theorem Ensures.bind (hx : Ensures I x Q) (hf : ∀ a, Q a → Ensures I (f a) R) :
    Ensures I (x >>= f) R := by
  intro s b s' hs hrun
  obtain ⟨a, t, ha, hb⟩ := bind_eq_ok_iff.1 hrun
  obtain ⟨ht, hQ⟩ := hx s a t hs ha
  exact hf a hQ t b s' ht hb

theorem Ensures.mapM {g : β → ExceptT ε (StateM σ) α} {S : β → α → Prop}
    (h : ∀ b, Ensures I (g b) (S b)) (bs : List β) :
    Ensures I (bs.mapM g) (List.Forall₂ S bs) :=
  fun _ _ _ hs hrun => mapM_invariant I (fun b a s s' => h b s a s') hs hrun

end Ensures

section Preserves

variable {x : ExceptT ε (StateM σ) α} {f : α → ExceptT ε (StateM σ) β} {I : σ → Prop}

/-- However the action ends, what holds of the state holds of it again. -/
def Preserves (I : σ → Prop) (x : ExceptT ε (StateM σ) α) : Prop :=
  ∀ s, I s → I (x.run.run s).2

theorem Preserves.elim (h : Preserves I x) (hs : I s) {r : Except ε α}
    (hrun : x.run.run s = (r, s')) : I s' := by
  have hI := h s hs
  rwa [hrun] at hI

theorem Keeps.preserves (h : Keeps view x) (hI : ∀ s t, view s = view t → I s → I t) :
    Preserves I x := fun s hs => hI s _ (h s).symm hs

theorem Preserves.bind_of_run (hx : Preserves I x)
    (hf : ∀ s a t, x.run.run s = (.ok a, t) → Preserves I (f a)) : Preserves I (x >>= f) := by
  intro s hs
  rw [run_bind]
  rcases hrun : x.run.run s with ⟨e | a, t⟩
  · exact hx.elim hs hrun
  · exact hf s a t hrun t (hx.elim hs hrun)

theorem Preserves.bind (hx : Preserves I x) (hf : ∀ a, Preserves I (f a)) :
    Preserves I (x >>= f) :=
  hx.bind_of_run fun _ a _ _ => hf a

theorem Preserves.tryCatch {handler : ε → ExceptT ε (StateM σ) α} (hx : Preserves I x)
    (hhandler : ∀ e, Preserves I (handler e)) : Preserves I (tryCatch x handler) := by
  intro s hs
  rw [run_tryCatch]
  rcases hrun : x.run.run s with ⟨e | a, t⟩
  · exact hhandler e t (hx.elim hs hrun)
  · exact hx.elim hs hrun

theorem Preserves.forM {g : β → ExceptT ε (StateM σ) PUnit} {bs : List β}
    (h : ∀ b ∈ bs, Preserves I (g b)) : Preserves I (bs.forM g) := by
  induction bs with
  | nil => exact fun s hs => hs
  | cons b bs ih =>
    obtain ⟨hb, hbs⟩ := List.forall_mem_cons.1 h
    exact hb.bind fun _ => ih hbs

theorem Preserves.foldlM {g : α → β → ExceptT ε (StateM σ) α} (h : ∀ a b, Preserves I (g a b))
    (bs : List β) (a : α) : Preserves I (bs.foldlM g a) := by
  induction bs generalizing a with
  | nil => exact fun s hs => hs
  | cons b bs ih =>
    rw [List.foldlM_cons]
    exact (h a b).bind ih

end Preserves

section Fails

variable {x : ExceptT ε (StateM σ) α} {f : α → ExceptT ε (StateM σ) β} {r : Except ε α}

/-- Every fault of the action is of the kind. -/
def Fails (kind : ε → Prop) (x : ExceptT ε (StateM σ) α) : Prop :=
  ∀ s e s', x.run.run s = (.error e, s') → kind e

/-- A fault that the result may be is of the kind. -/
def FaultIs (kind : ε → Prop) (r : Except ε α) : Prop := ∀ e, r = .error e → kind e

theorem faultIs_ok (a : α) : FaultIs kind (.ok a : Except ε α) := nofun

theorem faultIs_error {e : ε} (h : kind e) : FaultIs kind (.error e : Except ε α) := by
  rintro _ ⟨⟩
  exact h

theorem FaultIs.bind {g : α → Except ε β} (hr : FaultIs kind r) (hg : ∀ a, FaultIs kind (g a)) :
    FaultIs kind (r >>= g) := by
  cases r with
  | error e => exact faultIs_error (hr e rfl)
  | ok a => exact hg a

theorem FaultIs.map {g : α → β} (hr : FaultIs kind r) : FaultIs kind (g <$> r) := by
  cases r with
  | error e => exact faultIs_error (hr e rfl)
  | ok a => exact faultIs_ok (g a)

theorem FaultIs.mapM {g : β → Except ε α} (h : ∀ b, FaultIs kind (g b)) (bs : List β) :
    FaultIs kind (bs.mapM g) := by
  induction bs with
  | nil => exact faultIs_ok []
  | cons b bs ih =>
    rw [List.mapM_cons]
    exact (h b).bind fun a => ih.bind fun as => faultIs_ok (a :: as)

theorem fails_pure (a : α) : Fails kind (pure a : ExceptT ε (StateM σ) α) := by
  rintro s e s' ⟨⟩

theorem fails_throw {e : ε} (h : kind e) : Fails kind (throw e : ExceptT ε (StateM σ) α) := by
  rintro s _ s' ⟨⟩
  exact h

theorem fails_get : Fails kind (get : ExceptT ε (StateM σ) σ) := by
  rintro s e s' ⟨⟩

theorem fails_set (t : σ) : Fails kind (set t : ExceptT ε (StateM σ) PUnit) := by
  rintro s e s' ⟨⟩

theorem fails_modify (change : σ → σ) :
    Fails kind (modify change : ExceptT ε (StateM σ) PUnit) := by
  rintro s e s' ⟨⟩

theorem FaultIs.ofExcept (h : FaultIs kind r) :
    Fails kind (ofExcept r : ExceptT ε (StateM σ) α) := by
  cases r with
  | error e => exact fails_throw (h e rfl)
  | ok a => exact fails_pure a

theorem Fails.bind (hx : Fails kind x) (hf : ∀ a, Fails kind (f a)) : Fails kind (x >>= f) := by
  intro s e s' h
  rcases bind_eq_error_iff.1 h with h | ⟨a, t, -, h⟩
  · exact hx s e s' h
  · exact hf a t e s' h

theorem Fails.mapM {g : β → ExceptT ε (StateM σ) α} (h : ∀ b, Fails kind (g b)) (bs : List β) :
    Fails kind (bs.mapM g) := by
  induction bs with
  | nil => exact fails_pure []
  | cons b bs ih =>
    rw [List.mapM_cons]
    exact (h b).bind fun a => ih.bind fun as => fails_pure (a :: as)

theorem Fails.foldlM {g : α → β → ExceptT ε (StateM σ) α} (h : ∀ a b, Fails kind (g a b))
    (bs : List β) (a : α) : Fails kind (bs.foldlM g a) := by
  induction bs generalizing a with
  | nil => exact fails_pure a
  | cons b bs ih =>
    rw [List.foldlM_cons]
    exact (h a b).bind ih

/-- A fault of another kind leaves what is seen of the state as it was. -/
def KeepsUnless (kind : ε → Prop) (view : σ → τ) (x : ExceptT ε (StateM σ) α) : Prop :=
  ∀ s e s', x.run.run s = (.error e, s') → ¬ kind e → view s' = view s

theorem Keeps.keepsUnless (h : Keeps view x) : KeepsUnless kind view x :=
  fun _ _ _ hrun _ => h.eq hrun

/-- What keeps the state can stand in front. -/
theorem KeepsUnless.keeps_bind (hx : Keeps view x) (hf : ∀ a, KeepsUnless kind view (f a)) :
    KeepsUnless kind view (x >>= f) := by
  intro s e s' h he
  rcases bind_eq_error_iff.1 h with h | ⟨a, t, ha, h⟩
  · exact hx.eq h
  · exact (hf a t e s' h he).trans (hx.eq ha)

/-- What fails in ways of the kind only can stand behind. -/
theorem KeepsUnless.bind_fails (hx : KeepsUnless kind view x) (hf : ∀ a, Fails kind (f a)) :
    KeepsUnless kind view (x >>= f) := by
  intro s e s' h he
  rcases bind_eq_error_iff.1 h with h | ⟨a, t, -, h⟩
  · exact hx s e s' h he
  · exact absurd (hf a t e s' h) he

end Fails

end ContractModel.Run
