import ContractModel.Build.Model
import ContractModel.Proofs.Types.InterfaceType
import ContractModel.Proofs.Types.Parameter
import Mathlib.Data.List.Induction

/-! # Overloads in the list of all methods

The primary contract of a unit lists the methods of all contracts, of those that are the same
internally the first one. Functions may be the same internally and still have different signatures,
since arrays are compared by their bases. An overload stays in the list exactly when one of its
methods is not preceded by such a method of another overload.
-/

namespace ContractModel

namespace ContractFunction

/-- Two functions of one name that have one signature. -/
def SameOverload (f g : ContractFunction) : Prop := f.name = g.name ∧ f.signature = g.signature

variable {f g : ContractFunction}

theorem typesAgree_of_map_eq {ss ts : List ParameterType}
    (h : ss.map ParameterType.sourceType = ts.map ParameterType.sourceType) : typesAgree ss ts := by
  induction ss generalizing ts with
  | nil =>
    rw [List.map_nil, eq_comm, List.map_eq_nil_iff] at h
    rw [h, typesAgree]
  | cons s ss ih =>
    cases ts with
    | nil => cases h
    | cons t ts =>
      obtain ⟨hst, hrest⟩ := List.cons.inj h
      rw [typesAgree, hst, SourceType.agrees_refl, ih hrest]
      rfl

/-- Functions of one name are the same internally as soon as their types have the same source
types. -/
theorem sameInternally_of_map_eq (hname : f.name = g.name)
    (harguments : f.arguments.map ParameterType.sourceType =
      g.arguments.map ParameterType.sourceType)
    (hresults : f.results.map ParameterType.sourceType =
      g.results.map ParameterType.sourceType) : f.sameInternally g := by
  rw [sameInternally, hname, beq_self_eq_true, typesAgree_of_map_eq harguments,
    typesAgree_of_map_eq hresults]
  rfl

/-- Functions of the interface are the same internally, whatever the dimensions of their arguments
are. -/
theorem sameInternally_of_sameBases {types : List SourceType} {ps qs : List InterfaceParameter}
    (hname : f.name = g.name) (hf : ParameterType.ofInterfaceList types ps = .ok f.arguments)
    (hg : ParameterType.ofInterfaceList types qs = .ok g.arguments)
    (hbases : List.Forall₂ InterfaceParameter.SameBases ps qs) (hresults : f.results = g.results) :
    f.sameInternally g :=
  sameInternally_of_map_eq hname (ParameterType.map_sourceType_eq_of_sameBases hf hg hbases)
    (by rw [hresults])

/-- Functions of the tree are the same internally, whatever the dimensions of their arguments
are. -/
theorem sameInternally_of_base? {ts : Trees} {root : String} {inLibrary : Bool}
    {ns ms : List Node} (hname : f.name = g.name)
    (hf : List.Forall₂ (fun n t => ParameterType.ofParameter ts root inLibrary n = .ok t) ns
      f.arguments)
    (hg : List.Forall₂ (fun n t => ParameterType.ofParameter ts root inLibrary n = .ok t) ms
      g.arguments)
    (hbases : ns.map ParameterType.base? = ms.map ParameterType.base?)
    (hresults : f.results = g.results) : f.sameInternally g :=
  sameInternally_of_map_eq hname (ParameterType.map_sourceType_eq_of_base? hf hg hbases)
    (by rw [hresults])

end ContractFunction

namespace BuildUnit

section Unique

variable {f g m : ContractFunction} {fs pre post : List ContractFunction}

theorem addMethod_cases (fs : List ContractFunction) (f : ContractFunction) :
    (addMethod fs f = fs ∧ ∃ g ∈ fs, g.sameInternally f) ∨
      (addMethod fs f = fs ++ [f] ∧ ∀ g ∈ fs, ¬ g.sameInternally f) := by
  unfold addMethod
  split
  · next hany => exact .inl ⟨rfl, List.any_eq_true.1 hany⟩
  · next hany => exact .inr ⟨rfl, by simpa using hany⟩

theorem mem_addMethod_iff :
    g ∈ addMethod fs f ↔ g ∈ fs ∨ (g = f ∧ ∀ h ∈ fs, ¬ h.sameInternally f) := by
  rcases addMethod_cases fs f with ⟨heq, h, hh, hsame⟩ | ⟨heq, hnone⟩
  · rw [heq]
    constructor
    · exact Or.inl
    · rintro (hg | ⟨-, hnone⟩)
      · exact hg
      · exact absurd hsame (hnone h hh)
  · rw [heq, List.mem_append, List.mem_singleton]
    constructor
    · rintro (hg | rfl)
      · exact .inl hg
      · exact .inr ⟨rfl, hnone⟩
    · rintro (hg | ⟨rfl, -⟩)
      · exact .inl hg
      · exact .inr rfl

theorem mem_uniqueMethods_foldl : f ∈ uniqueMethods fs ↔ f ∈ fs.foldl addMethod [] :=
  Sorting.mem_sort

/-- A further function is kept unless one that was kept is the same internally. -/
theorem mem_uniqueMethods_snoc :
    g ∈ uniqueMethods (fs ++ [f]) ↔
      g ∈ uniqueMethods fs ∨ (g = f ∧ ∀ h ∈ uniqueMethods fs, ¬ h.sameInternally f) := by
  simp only [mem_uniqueMethods_foldl, List.foldl_append, List.foldl_cons, List.foldl_nil,
    mem_addMethod_iff]

theorem mem_uniqueMethods_append (h : f ∈ uniqueMethods pre) :
    f ∈ uniqueMethods (pre ++ post) := by
  induction post generalizing pre with
  | nil => rwa [List.append_nil]
  | cons g post ih =>
    rw [List.append_cons]
    exact ih (mem_uniqueMethods_snoc.2 (.inl h))

theorem mem_uniqueMethods_iff :
    f ∈ uniqueMethods fs ↔
      ∃ pre post, fs = pre ++ f :: post ∧ ∀ g ∈ uniqueMethods pre, ¬ g.sameInternally f := by
  constructor
  · intro h
    induction fs using List.reverseRecOn with
    | nil => cases h
    | append_singleton fs g ih =>
      rcases mem_uniqueMethods_snoc.1 h with h | ⟨rfl, hnone⟩
      · obtain ⟨pre, post, rfl, hnone⟩ := ih h
        exact ⟨pre, post ++ [g], by rw [List.append_assoc, List.cons_append], hnone⟩
      · exact ⟨fs, [], rfl, hnone⟩
  · rintro ⟨pre, post, rfl, hnone⟩
    rw [List.append_cons]
    exact mem_uniqueMethods_append (mem_uniqueMethods_snoc.2 (.inr ⟨rfl, hnone⟩))

theorem mem_of_mem_uniqueMethods (h : f ∈ uniqueMethods fs) : f ∈ fs := by
  obtain ⟨pre, post, rfl, -⟩ := mem_uniqueMethods_iff.1 h
  exact List.mem_append_right _ List.mem_cons_self

/-- An overload is kept exactly when one of its functions meets no kept function that is the same
internally and of another overload. -/
theorem exists_mem_uniqueMethods_iff :
    (∃ f ∈ uniqueMethods fs, f.SameOverload m) ↔
      ∃ pre f post, fs = pre ++ f :: post ∧ f.SameOverload m ∧
        ∀ g ∈ uniqueMethods pre, g.sameInternally f → g.SameOverload m := by
  constructor
  · rintro ⟨f, hf, hm⟩
    obtain ⟨pre, post, rfl, hnone⟩ := mem_uniqueMethods_iff.1 hf
    exact ⟨pre, f, post, rfl, hm, fun g hg hsame => absurd hsame (hnone g hg)⟩
  · rintro ⟨pre, f, post, rfl, hm, hkept⟩
    by_cases hsame : ∃ g ∈ uniqueMethods pre, g.sameInternally f
    · obtain ⟨g, hg, hgf⟩ := hsame
      exact ⟨g, mem_uniqueMethods_append hg, hkept g hg hgf⟩
    · refine ⟨f, mem_uniqueMethods_iff.2 ⟨pre, post, rfl, ?_⟩, hm⟩
      intro g hg hgf
      exact hsame ⟨g, hg, hgf⟩

/-- No overload is replaced by another one that is the same internally. -/
def OverloadsApart (fs : List ContractFunction) : Prop :=
  ∀ m ∈ fs, ∃ pre f post, fs = pre ++ f :: post ∧ f.SameOverload m ∧
    ∀ g ∈ uniqueMethods pre, g.sameInternally f → g.SameOverload m

end Unique

theorem methods_withFinders (u : BuildUnit) (finders : SortedMap String ContractFunction) :
    (u.withFinders finders).methods = u.methods := by
  rw [methods, methods, withFinders, List.flatMap_map]

theorem primary_eq_ok_iff {u v : BuildUnit} :
    u.primary = .ok v ↔ ∃ c, (u.contracts.filter fun c => c.name == u.primaryContract) = [c] ∧
      v = { u with contracts := [{ c with allMethods := uniqueMethods u.methods }] } := by
  unfold primary
  split
  · next c hc =>
    constructor
    · rintro ⟨⟩
      exact ⟨c, hc, rfl⟩
    · rintro ⟨d, hd, rfl⟩
      cases hc.symm.trans hd
      rfl
  · next cs hne =>
    constructor
    · rintro ⟨⟩
    · rintro ⟨c, hc, -⟩
      exact absurd hc (hne c)

end BuildUnit

namespace Build

variable {prototypes : List String} {found : FoundUnit} {s s' : BuildState}

/-- A unit that is added lists in its primary contract the methods of all contracts. -/
theorem get?_model_addUnit (h : (addUnit prototypes found).run.run s = (.ok (), s')) :
    ∃ u c, s'.model.get? (BuildModel.key found.unit.primaryContract found.unit.address) = some u ∧
      u.contracts = [c] ∧ c.name = found.unit.primaryContract ∧
      c.allMethods = BuildUnit.uniqueMethods found.unit.methods := by
  obtain ⟨-, t, -, h⟩ := Run.bind_eq_ok_iff.1 h
  obtain ⟨u, t, hrun, h⟩ := Run.bind_eq_ok_iff.1 h
  obtain ⟨hprimary, rfl⟩ := Run.ofExcept_eq_ok_iff.1 hrun
  obtain ⟨c, hc, rfl⟩ := BuildUnit.primary_eq_ok_iff.1 hprimary
  cases h
  have hmem := List.mem_filter.1 (hc ▸ List.mem_singleton_self c)
  refine ⟨_, _, (SortedMap.get?_insert _ _ _ _).trans (if_pos rfl), rfl, eq_of_beq hmem.2, ?_⟩
  exact congrArg BuildUnit.uniqueMethods (BuildUnit.methods_withFinders found.unit found.finders)

/-- The primary contract of an added unit lists every overload exactly when none is replaced by
another one that is the same internally. -/
theorem allMethods_complete_iff (h : (addUnit prototypes found).run.run s = (.ok (), s')) :
    ∃ u c, s'.model.get? (BuildModel.key found.unit.primaryContract found.unit.address) = some u ∧
      u.contracts = [c] ∧ c.name = found.unit.primaryContract ∧
      ((∀ m ∈ found.unit.methods, ∃ f ∈ c.allMethods, f.SameOverload m) ↔
        BuildUnit.OverloadsApart found.unit.methods) := by
  obtain ⟨u, c, hget, hcontracts, hname, hall⟩ := get?_model_addUnit h
  refine ⟨u, c, hget, hcontracts, hname, ?_⟩
  rw [hall]
  exact forall₂_congr fun m _ => BuildUnit.exists_mem_uniqueMethods_iff

section Arrays

/-- A method with one argument. -/
def overload (typeString : String) : ContractFunction :=
  { (default : ContractFunction) with
    name := "f"
    arguments := (ParameterType.ofInterface [] ⟨"x", typeString, none, none⟩).toOption.toList }

/-- A unit of one contract. -/
def unitWith (methods : List ContractFunction) : FoundUnit where
  finders := ∅
  unit := { (default : BuildUnit) with
    primaryContract := "T"
    contracts := [{ (default : ContractRecord) with name := "T", methods := methods }] }

theorem exists_run_unitWith (methods : List ContractFunction) (s : BuildState) :
    ∃ s', (addUnit [] (unitWith methods)).run.run s = (.ok (), s') := ⟨_, rfl⟩

theorem allMethods_complete_apart : ∃ s' u c,
    (addUnit [] (unitWith [overload "uint256", overload "address"])).run.run
      (.start ⟨"/", ∅⟩) = (.ok (), s') ∧
    s'.model.get? (BuildModel.key "T" "") = some u ∧ u.contracts = [c] ∧
    ∀ m ∈ [overload "uint256", overload "address"], ∃ f ∈ c.allMethods, f.SameOverload m := by
  obtain ⟨s', h⟩ := exists_run_unitWith [overload "uint256", overload "address"] (.start ⟨"/", ∅⟩)
  obtain ⟨u, c, hget, hcontracts, -, hiff⟩ := allMethods_complete_iff h
  refine ⟨s', u, c, h, hget, hcontracts, hiff.2 ?_⟩
  have hapart : ¬ (overload "uint256").sameInternally (overload "address") := by decide +kernel
  rintro m (_ | ⟨_, _ | ⟨_, ⟨⟩⟩⟩)
  · exact ⟨[], _, _, rfl, ⟨rfl, rfl⟩, by rintro g ⟨⟩⟩
  · refine ⟨[_], _, [], rfl, ⟨rfl, rfl⟩, fun g hg hsame => ?_⟩
    rw [List.mem_singleton.1 (BuildUnit.mem_of_mem_uniqueMethods hg)] at hsame
    exact absurd hsame hapart

/-- The list has no overload for an array if there is one for its elements. -/
theorem allMethods_not_complete : ∃ s' u c,
    (addUnit [] (unitWith [overload "uint256", overload "uint256[]"])).run.run
      (.start ⟨"/", ∅⟩) = (.ok (), s') ∧
    s'.model.get? (BuildModel.key "T" "") = some u ∧ u.contracts = [c] ∧
    ¬ ∀ m ∈ [overload "uint256", overload "uint256[]"], ∃ f ∈ c.allMethods, f.SameOverload m := by
  obtain ⟨s', h⟩ := exists_run_unitWith [overload "uint256", overload "uint256[]"] (.start ⟨"/", ∅⟩)
  obtain ⟨u, c, hget, hcontracts, -, hall⟩ := get?_model_addUnit h
  refine ⟨s', u, c, h, hget, hcontracts, fun hcomplete => ?_⟩
  have hsame : (overload "uint256").sameInternally (overload "uint256[]") := by decide +kernel
  have hother : (overload "uint256").signature ≠ (overload "uint256[]").signature := by
    decide +kernel
  obtain ⟨f, hf, -, hsignature⟩ := hcomplete (overload "uint256[]") (by simp)
  rw [hall] at hf
  rcases (@BuildUnit.mem_uniqueMethods_snoc _ f [overload "uint256"]).1 hf with hf | ⟨-, hnone⟩
  · rw [List.mem_singleton.1 (BuildUnit.mem_of_mem_uniqueMethods hf)] at hsignature
    exact hother hsignature
  · exact hnone _ (List.mem_singleton_self _) hsame

end Arrays

end Build

end ContractModel
