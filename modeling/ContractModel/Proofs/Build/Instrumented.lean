import ContractModel.Proofs.Build.Faults
import ContractModel.Proofs.Build.Order
import ContractModel.Proofs.Instrument.AllOrNothing

/-! # Units with and without finders

The units of a file are those of its instrumented copy, or the given ones if the sources cannot be
instrumented or the compiler refuses the copy. In the second case nothing that later files depend
on has changed.
-/

namespace ContractModel

open Run

namespace Finders

open Build

variable {τ : Type} {view : BuildState → τ} {setting : BuildSetting} {file copy : String}
  {index : Nat} {us : List BuildUnit} {finders : SortedMap String ContractFunction}
  {found : List FoundUnit} {s s' : BuildState}

theorem keeps_plan (hnext : ∀ s next, view { s with nextFinder := next } = view s)
    (us : List BuildUnit) : Keeps view (plan us) := by
  cases us with
  | nil => exact keeps_pure _
  | cons u us => exact fun s => hnext s _

theorem keeps_instrument (h : IgnoresFiles view)
    (hnext : ∀ s next, view { s with nextFinder := next } = view s) (file : String)
    (us : List BuildUnit) : Keeps view (instrument file us) := by
  refine (keeps_plan hnext us).bind fun planned => ?_
  split
  · exact keeps_pure _
  · refine keeps_get_bind fun s => ?_
    dsimp only
    split
    · rfl
    · next edits _ =>
      have hwrite := Copies.retains_write s.files edits
      split
      · next files heq =>
        rw [heq] at hwrite
        exact h.files s files hwrite
      · next files heq =>
        rw [heq] at hwrite
        exact (h.copies _ _).trans (h.files s files hwrite)

theorem keeps_instrumented (h : IgnoresFiles view)
    (hnext : ∀ s next, view { s with nextFinder := next } = view s)
    (hfailed : ∀ s failed, view { s with findersFailed := failed } = view s)
    (hindex : ∀ s index, view { s with index := index } = view s)
    (hlinked : ∀ s linked, view { s with linkedLibraries := linked } = view s)
    (hbook : ∀ s book, view { s with book := book } = view s) (file : String) (index : Nat)
    (us : List BuildUnit) : Keeps view (instrumented setting file index us) := by
  have hfallBack : Keeps view (fallBack us) :=
    (keeps_modify fun s => hfailed s true).bind fun _ => keeps_pure _
  unfold instrumented
  split
  · exact keeps_pure _
  · refine (keeps_instrument h hnext file us).bind fun planned => ?_
    split
    · exact hfallBack
    · refine Keeps.tryCatch ?_ fun e => ?_
      · exact (Collect.keeps_units h hindex hlinked hbook _ _ _ _).bind fun _ => keeps_pure _
      · split
        · exact hfallBack
        · exact keeps_throw e

/-- Instrumenting may find out that it cannot be done, but it does not fail. -/
theorem exists_instrument (file : String) (us : List BuildUnit) (s : BuildState) :
    ∃ r s', (instrument file us).run.run s = (.ok r, s') := by
  have hplan : ∃ r s', (plan us).run.run s = (.ok r, s') := by
    cases us with
    | nil => exact ⟨_, _, rfl⟩
    | cons u us => exact ⟨_, _, rfl⟩
  obtain ⟨planned, t, hplan⟩ := hplan
  simp only [instrument, bind_eq_ok_iff]
  suffices ∃ r s', _ from this.imp fun r h => h.imp fun s' h => ⟨planned, t, hplan, h⟩
  cases planned with
  | error e => exact ⟨_, _, rfl⟩
  | ok plan =>
    dsimp only
    rw [run_get_bind]
    split
    · exact ⟨_, _, rfl⟩
    · split <;> exact ⟨_, _, rfl⟩

/-- The copy of a file stands beside it. -/
theorem copy_eq_of_instrument
    (h : (instrument file us).run.run s = (.ok (.ok (finders, copy)), s')) :
    copy = Copies.pathOf (Path.normalize s.files.current file) := by
  obtain ⟨planned, t, hplan, h⟩ := bind_eq_ok_iff.1 h
  have hkeeps : Keeps (fun s : BuildState => s.files.current) (plan us) :=
    keeps_plan (fun _ _ => rfl) us
  have hcurrent : t.files.current = s.files.current := hkeeps.eq hplan
  cases planned with
  | error e => cases h
  | ok plan =>
    rw [run_get_bind] at h
    dsimp only at h
    split at h
    · cases h
    · split at h
      · cases h
      · cases h
        rw [hcurrent]

/-- The sources cannot be instrumented, or the compiler refuses the copy. -/
def FallsBack (setting : BuildSetting) (file : String) (index : Nat) (us : List BuildUnit)
    (s : BuildState) : Prop :=
  (∃ e t, (instrument file us).run.run s = (.ok (.error e), t)) ∨
    ∃ finders copy t e t', (instrument file us).run.run s = (.ok (.ok (finders, copy)), t) ∧
      (Collect.units setting copy file index true).run.run t = (.error e, t') ∧ e.isGenerated

/-- Falling back, evaluated. -/
def fallsBack (setting : BuildSetting) (file : String) (index : Nat) (us : List BuildUnit)
    (s : BuildState) : Bool :=
  match (instrument file us).run.run s with
  | (.ok (.ok (_, copy)), t) =>
    match (Collect.units setting copy file index true).run.run t with
    | (.error e, _) => e.isGenerated
    | (.ok _, _) => false
  | (.ok (.error _), _) => true
  | (.error _, _) => false

theorem fallsBack_iff :
    fallsBack setting file index us s = true ↔ FallsBack setting file index us s := by
  unfold fallsBack FallsBack
  rcases (instrument file us).run.run s with ⟨e | e | ⟨finders, copy⟩, t⟩
  · constructor
    · rintro ⟨⟩
    · rintro (⟨_, _, ⟨⟩⟩ | ⟨_, _, _, _, _, ⟨⟩, _⟩)
  · exact iff_of_true rfl (.inl ⟨e, t, rfl⟩)
  · dsimp only
    rcases hunits : (Collect.units setting copy file index true).run.run t with ⟨e | vs, t'⟩
    · constructor
      · intro he
        exact .inr ⟨finders, copy, t, e, t', rfl, hunits, he⟩
      · rintro (⟨_, _, ⟨⟩⟩ | ⟨_, _, _, _, _, ⟨⟩, herror, he⟩)
        cases hunits.symm.trans herror
        exact he
    · constructor
      · rintro ⟨⟩
      · rintro (⟨_, _, ⟨⟩⟩ | ⟨_, _, _, _, _, ⟨⟩, herror, _⟩)
        cases hunits.symm.trans herror

instance : Decidable (FallsBack setting file index us s) := decidable_of_iff _ fallsBack_iff

theorem ignoresFiles_current : IgnoresFiles fun s => s.files.current :=
  ⟨fun _ _ h => h.current, fun _ _ => rfl, fun _ _ => rfl, fun _ _ => rfl⟩

/-- Falling back gives the units without finders, in the state in which it was found out that there
are none. -/
theorem run_of_fallsBack (h : FallsBack setting file index us s) (hne : us ≠ []) : ∃ t,
    (instrumented setting file index us).run.run s =
      (.ok (withoutFinders us), { t with findersFailed := true }) ∧
    ((∃ e, (instrument file us).run.run s = (.ok (.error e), t)) ∨
      ∃ finders copy t₀ e, (instrument file us).run.run s = (.ok (.ok (finders, copy)), t₀) ∧
        (Collect.units setting copy file index true).run.run t₀ = (.error e, t) ∧
        e.isGenerated) := by
  have hempty : ¬ us.isEmpty = true := by simpa using hne
  unfold instrumented
  rw [if_neg hempty, run_bind]
  rcases h with ⟨e, t, hinstrument⟩ | ⟨finders, copy, t₀, e, t, hinstrument, hunits, he⟩
  · refine ⟨t, ?_, .inl ⟨e, hinstrument⟩⟩
    rw [hinstrument]
    rfl
  · refine ⟨t, ?_, .inr ⟨finders, copy, t₀, e, hinstrument, hunits, he⟩⟩
    rw [hinstrument]
    dsimp only
    rw [run_tryCatch, run_bind, hunits]
    dsimp only
    rw [if_pos he]
    rfl

/-- It notes that there are no finders, and what later files depend on is as it was. -/
theorem instrumented_of_fallsBack (h : FallsBack setting file index us s) (hne : us ≠ []) :
    ∃ s', (instrumented setting file index us).run.run s = (.ok (withoutFinders us), s') ∧
      s'.findersFailed = true ∧ core s' = core s := by
  have hkeeps := keeps_instrument ignoresFiles_core (fun _ _ => rfl) file us
  obtain ⟨t, hrun, hend⟩ := run_of_fallsBack h hne
  refine ⟨{ t with findersFailed := true }, hrun, rfl, ?_⟩
  change core t = core s
  rcases hend with ⟨e, hinstrument⟩ | ⟨finders, copy, t₀, e, hinstrument, hunits, he⟩
  · exact hkeeps.eq hinstrument
  · have ht : core t = core t₀ :=
      keepsUnless_units t₀ e t hunits (by simp [Error.NotGenerated, he])
    exact ht.trans (hkeeps.eq hinstrument)

/-- The units that are added for a file are the given ones, or those of the file's copy. -/
theorem instrumented_cases
    (h : (instrumented setting file index us).run.run s = (.ok found, s')) :
    us = [] ∧ found = [] ∧ s' = s ∨
      us ≠ [] ∧ FallsBack setting file index us s ∧ found = withoutFinders us ∧
        core s' = core s ∨
      ∃ finders copy t vs, (instrument file us).run.run s = (.ok (.ok (finders, copy)), t) ∧
        (Collect.units setting copy file index true).run.run t = (.ok vs, s') ∧
        found = foundWith finders vs := by
  by_cases hempty : us = []
  · subst hempty
    obtain ⟨rfl, rfl⟩ := pure_eq_ok_iff.1 h
    exact .inl ⟨rfl, rfl, rfl⟩
  by_cases hfalls : FallsBack setting file index us s
  · obtain ⟨t, hrun, -, hcore⟩ := instrumented_of_fallsBack hfalls hempty
    cases hrun.symm.trans h
    exact .inr (.inl ⟨hempty, hfalls, rfl, hcore⟩)
  obtain ⟨r, t, hinstrument⟩ := exists_instrument file us s
  unfold instrumented at h
  rw [if_neg (by simpa using hempty), run_bind, hinstrument] at h
  cases r with
  | error e => exact absurd (.inl ⟨e, t, hinstrument⟩) hfalls
  | ok planned =>
    obtain ⟨finders, copy⟩ := planned
    dsimp only at h
    rw [run_tryCatch, run_bind] at h
    rcases hunits : (Collect.units setting copy file index true).run.run t with ⟨e | vs, t'⟩
    · rw [hunits] at h
      dsimp only at h
      split at h
      · next he => exact absurd (.inr ⟨_, _, _, _, _, hinstrument, hunits, he⟩) hfalls
      · cases h
    · rw [hunits] at h
      cases h
      exact .inr (.inr ⟨finders, copy, t, vs, hinstrument, hunits, rfl⟩)

end Finders

end ContractModel
