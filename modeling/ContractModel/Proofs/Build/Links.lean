import ContractModel.Proofs.Build.Trace

/-! # What links leave alone

A link sets immutables, slots and fields of a unit. What the unit is, and where its contract comes
from, is as it was added.
-/

namespace ContractModel

open Run

def ContractRecord.unlinked (c : ContractRecord) : ContractRecord := { c with immutables := [] }

/-- The unit without anything that links can set. -/
def BuildUnit.unlinked (u : BuildUnit) : BuildUnit :=
  { u with
    contracts := u.contracts.map ContractRecord.unlinked
    state := ∅
    structLinks := ∅
    legacyStructLinks := ∅ }

namespace BuildModel

/-- The units without anything that links can set. -/
def unlinked (m : BuildModel) : BuildModel := m.mapValues fun _ u => u.unlinked

theorem unlinked_modify (m : BuildModel) (key : String) {change : BuildUnit → BuildUnit}
    (h : ∀ u, (change u).unlinked = u.unlinked) :
    unlinked (m.modify key change) = m.unlinked := by
  refine SortedMap.ext ?_
  change List.map _ (List.map _ _) = List.map _ _
  rw [List.map_map]
  refine List.map_congr_left fun e _ => ?_
  dsimp only [Function.comp_apply]
  split
  · rw [h]
  · rfl

/-- What is in the model under a key was put there as the same unit, but for links. -/
theorem exists_of_unlinked_eq {m n : BuildModel} (h : m.unlinked = n.unlinked) {key : String}
    {u : BuildUnit} (hu : m.get? key = some u) :
    ∃ v, n.get? key = some v ∧ u.unlinked = v.unlinked := by
  have hget := congrArg (fun m : BuildModel => m.get? key) h
  simp only [unlinked, SortedMap.get?_mapValues, hu, Option.map_some] at hget
  obtain ⟨v, hv, heq⟩ := Option.map_eq_some_iff.1 hget.symm
  exact ⟨v, hv, heq.symm⟩

end BuildModel

namespace BuildUnit

theorem unlinked_presetImmutable (u : BuildUnit) (holder : Nat) (variableName value : String) :
    (u.presetImmutable holder variableName value).unlinked = u.unlinked := by
  unfold unlinked presetImmutable
  congr 1
  refine List.ext_getElem? fun i => ?_
  simp only [List.getElem?_map, List.getElem?_modify, Option.map_eq_map, Option.map_map]
  refine Option.map_congr fun c _ => ?_
  dsimp only [Function.comp_apply]
  split <;> rfl

/-- Units that only links tell apart are units of one contract. -/
theorem eq_of_unlinked_eq {u v : BuildUnit} (h : u.unlinked = v.unlinked) :
    u.primaryContract = v.primaryContract ∧ u.address = v.address ∧
      u.originFile = v.originFile ∧ u.libraryAddresses = v.libraryAddresses := by
  refine ⟨?_, ?_, ?_, ?_⟩
  · exact show u.unlinked.primaryContract = v.unlinked.primaryContract from congrArg _ h
  · exact show u.unlinked.address = v.unlinked.address from congrArg _ h
  · exact show u.unlinked.originFile = v.unlinked.originFile from congrArg _ h
  · exact show u.unlinked.libraryAddresses = v.unlinked.libraryAddresses from congrArg _ h

/-- A unit of one contract stands for the same one without links. -/
theorem exists_contract_of_unlinked_eq {u v : BuildUnit} (h : u.unlinked = v.unlinked)
    {c : ContractRecord} (hc : v.contracts = [c]) :
    ∃ d, u.contracts = [d] ∧ d.name = c.name ∧ d.file = c.file ∧ d.address = c.address := by
  have hcontracts := congrArg contracts h
  dsimp only [unlinked] at hcontracts
  rw [hc, List.map_singleton] at hcontracts
  obtain ⟨d, hd, heq⟩ := List.map_eq_singleton_iff.1 hcontracts
  have hname : d.unlinked.name = c.unlinked.name := congrArg ContractRecord.name heq
  have hfile : d.unlinked.file = c.unlinked.file := congrArg ContractRecord.file heq
  have haddress : d.unlinked.address = c.unlinked.address := congrArg ContractRecord.address heq
  exact ⟨d, hd, hname, hfile, haddress⟩

end BuildUnit

namespace Links

open Build

variable {τ : Type} {view : BuildState → τ} {setting : BuildSetting}

/-- What is seen of a state depends neither on links nor on what the compiler was asked for them. -/
structure IgnoresLinks (view : BuildState → τ) : Prop where
  links : ∀ (s : BuildState) key (change : BuildUnit → BuildUnit),
    (∀ u, (change u).unlinked = u.unlinked) →
      view { s with model := s.model.modify key change } = view s
  requests : ∀ (s : BuildState) requests, view { s with requests := requests } = view s

theorem ignoresLinks_unlinked : IgnoresLinks fun s : BuildState => s.model.unlinked :=
  ⟨fun s key _ h => BuildModel.unlinked_modify s.model key h, fun _ _ => rfl⟩

theorem keeps_update (h : IgnoresLinks view) (key : String) {change : BuildUnit → BuildUnit}
    (hchange : ∀ u, (change u).unlinked = u.unlinked) : Keeps view (update key change) :=
  keeps_modify fun s => h.links s key change hchange

theorem keeps_slotFromAssembly
    (h : ∀ (s : BuildState) requests, view { s with requests := requests } = view s)
    (u : BuildUnit) (contract name : String) :
    Keeps view (slotFromAssembly setting u contract name) := by
  refine (keeps_tool _).bind fun arguments => Keeps.bind ?_ fun assembly => keeps_ofExcept _
  exact keeps_request h _ _

theorem keeps_slotOf
    (h : ∀ (s : BuildState) requests, view { s with requests := requests } = view s)
    (u : BuildUnit) (contract name : String) : Keeps view (slotOf setting u contract name) := by
  unfold slotOf
  split
  · refine (keeps_ofExcept _).bind fun slot => ?_
    split
    · exact keeps_pure _
    · exact keeps_slotFromAssembly h u contract name
  · exact keeps_slotFromAssembly h u contract name

theorem keeps_setSlot (h : IgnoresLinks view) (key : String) (u : BuildUnit) (d : LinkDirective)
    (destination : String) : Keeps view (setSlot setting key u d destination) := by
  unfold setSlot
  extract_lets rest
  have hrest : ∀ slot, Keeps view (rest slot) := fun slot => keeps_update h key fun u => rfl
  split
  · split
    · exact (keeps_pure _).bind hrest
    · exact (keeps_throw _).bind hrest
  · exact (keeps_slotOf h.requests u _ _).bind hrest

theorem keeps_apply (h : IgnoresLinks view) (d : LinkDirective) : Keeps view (apply setting d) := by
  refine keeps_get.bind fun s => (keeps_ofExcept _).bind fun key => ?_
  split
  · exact keeps_throw _
  · split
    · exact keeps_setSlot h _ _ _ _
    · exact keeps_update h _ fun u => u.unlinked_presetImmutable _ _ _
    · exact keeps_throw _

theorem keeps_applyStruct (h : IgnoresLinks view) (d : LinkDirective) :
    Keeps view (applyStruct d) := by
  refine keeps_get.bind fun s => (keeps_ofExcept _).bind fun key => ?_
  split
  · split
    · exact keeps_update h _ fun u => rfl
    · exact keeps_throw _
  · exact keeps_update h _ fun u => rfl

theorem keeps_applyAll (h : IgnoresLinks view) : Keeps view (applyAll setting) :=
  (keeps_ofExcept _).bind fun ds => (Keeps.forM (keeps_apply h) ds).bind fun _ =>
    (keeps_ofExcept _).bind fun ds => Keeps.forM (keeps_applyStruct h) ds

end Links

namespace Config

open Build

variable {config : Config} {compiler : Compiler} {files : FileTree} {s : BuildState}

/-- The files of a build in the order in which they are built, with their indices. -/
def builtFiles (config : Config) : List (String × Nat) :=
  (Sorting.sort (fun f g => f ≤ g) config.files).zipIdx

/-- What a build puts into the model before it sets the links, in order. -/
def additions (config : Config) (compiler : Compiler) (files : FileTree) : List BuildUnit :=
  match config.functionFinders files, config.prototypes with
  | .ok finders, .ok prototypes =>
    additionsFrom ⟨config, compiler, finders⟩ prototypes config.builtFiles (.start files)
  | _, _ => []

theorem mem_fst_builtFiles {file : String} (h : file ∈ config.files) :
    ∃ index, (file, index) ∈ config.builtFiles := by
  have hsort : file ∈ Sorting.sort (fun f g => f ≤ g) config.files := Sorting.mem_sort.2 h
  obtain ⟨index, hindex, rfl⟩ := List.getElem_of_mem hsort
  exact ⟨index, List.mk_mem_zipIdx_iff_getElem?.2 (List.getElem?_eq_getElem hindex)⟩

theorem mem_files_of_builtFiles {p : String × Nat} (h : p ∈ config.builtFiles) :
    p.1 ∈ config.files := by
  have hmem : p.1 ∈ Sorting.sort (fun f g => f ≤ g) config.files :=
    (List.mem_zipIdx' h).2 ▸ List.getElem_mem _
  exact Sorting.mem_sort.1 hmem

theorem buildAll_eq_ok {r : Unit} (h : (buildAll config compiler).run.run (.start files) = (.ok r, s)) :
    ∃ finders prototypes t, config.functionFinders files = .ok finders ∧
      config.prototypes = .ok prototypes ∧
      (config.builtFiles.forM fun p =>
        buildFile ⟨config, compiler, finders⟩ prototypes p.1 p.2).run.run (.start files) =
          (.ok (), t) ∧
      (Links.applyAll ⟨config, compiler, finders⟩).run.run t = (.ok (), s) := by
  unfold buildAll at h
  rw [run_get_bind] at h
  obtain ⟨finders, t, hrun, h⟩ := bind_eq_ok_iff.1 h
  obtain ⟨hfinders, rfl⟩ := ofExcept_eq_ok_iff.1 hrun
  obtain ⟨prototypes, t, hrun, h⟩ := bind_eq_ok_iff.1 h
  obtain ⟨hprototypes, rfl⟩ := ofExcept_eq_ok_iff.1 hrun
  obtain ⟨_, t, hbuilt, hlinks⟩ := bind_eq_ok_iff.1 h
  exact ⟨finders, prototypes, t, hfinders, hprototypes, hbuilt, hlinks⟩

/-- A build goes well only if building all files and links does. -/
theorem exists_buildAll_of_build (h : config.build compiler files = (.ok (), s)) :
    ∃ r t, (buildAll config compiler).run.run (.start files) = (.ok r, t) ∧ s.model = t.model := by
  unfold build at h
  rcases hrun : (buildAll config compiler).run.run (.start files) with ⟨e | r, t⟩
  · rw [hrun] at h
    cases h
  refine ⟨r, t, rfl, ?_⟩
  rw [hrun] at h
  dsimp only at h
  split at h
  · cases h
  · cases h
    split <;> rfl

/-- The model of a build that goes well, but for links, is what was added. -/
theorem build_eq_ok (h : config.build compiler files = (.ok (), s)) :
    s.model.unlinked = ((config.additions compiler files).foldl BuildModel.add ∅).unlinked ∧
      (∃ next, Traced config.address 0 next (config.additions compiler files)) ∧
      ∀ file ∈ config.files, ∀ contract ∈ config.contractsOf file,
        ∃ v ∈ config.additions compiler files, v.primaryContract = contract ∧
          IsFileOrCopy files.current file v.originFile := by
  obtain ⟨r, t, hrun, hmodel⟩ := exists_buildAll_of_build h
  obtain ⟨finders, prototypes, t', hfinders, hprototypes, hbuilt, hlinks⟩ := buildAll_eq_ok hrun
  have hadds := addsUp_files hbuilt
  have hadditions : config.additions compiler files =
      additionsFrom ⟨config, compiler, finders⟩ prototypes config.builtFiles (.start files) := by
    unfold additions
    rw [hfinders, hprototypes]
  have hlinked : t.model.unlinked = t'.model.unlinked :=
    (Links.keeps_applyAll Links.ignoresLinks_unlinked).eq hlinks
  rw [hadditions, hmodel, hlinked, hadds.model]
  refine ⟨rfl, ⟨_, hadds.traced⟩, fun file hfile contract hcontract => ?_⟩
  obtain ⟨index, hindex⟩ := mem_fst_builtFiles hfile
  exact hadds.primaries _ hindex _ hcontract

end Config

end ContractModel
