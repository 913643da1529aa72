import ContractModel.Proofs.Build.Additions

/-! # The order in which the units of a file are added

The units of a file have the same libraries, and each brings the units of these along. If one of
the units is itself built for such a library, the unit split out of another one takes its place
when that one is added later.
-/

namespace ContractModel

open Run

/-- The primary contract of the unit is one of the libraries linked into the unit. -/
def BuildUnit.IsOwnLibrary (u : BuildUnit) : Prop :=
  u.address ∈ u.libraryAddresses ∧
    ∃ c ∈ u.contracts, c.name = u.primaryContract ∧ c.address = u.address

instance (u : BuildUnit) : Decidable u.IsOwnLibrary :=
  inferInstanceAs (Decidable (_ ∧ ∃ c ∈ u.contracts, _))

namespace Build

variable {prototypes : SortedMap String (List String)}
  {finders : SortedMap String ContractFunction} {us vs ws : List BuildUnit}

/-- The units with their finders. -/
def foundWith (finders : SortedMap String ContractFunction) (us : List BuildUnit) :
    List FoundUnit :=
  us.map fun u => ⟨finders, u⟩

/-- In whatever order the units are added, the model becomes the same. -/
def OrderIrrelevant (prototypes : SortedMap String (List String))
    (finders : SortedMap String ContractFunction) (us : List BuildUnit) : Prop :=
  ∀ vs ws s t t', us.Perm vs → us.Perm ws →
    (addFound prototypes (foundWith finders vs)).run.run s = (.ok (), t) →
    (addFound prototypes (foundWith finders ws)).run.run s = (.ok (), t') → t.model = t'.model

/-- In whatever order the units are added, each one's primary contract is in the model in the end as
that unit has it. -/
def PrimariesKept (prototypes : SortedMap String (List String))
    (finders : SortedMap String ContractFunction) (us : List BuildUnit) : Prop :=
  ∀ vs s t, us.Perm vs →
    (addFound prototypes (foundWith finders vs)).run.run s = (.ok (), t) →
    ∀ u ∈ us, ∃ v, ((⟨finders, u⟩ : FoundUnit).prepared prototypes).primary = .ok v ∧
      t.model.get? u.key = some v

/-- No unit is built for a library of the others. -/
def LibrariesApart (us : List BuildUnit) : Prop :=
  (∀ u ∈ us, ∀ v ∈ us, u.primaryContract = v.primaryContract) ∨ ∀ u ∈ us, ¬ u.IsOwnLibrary

instance (us : List BuildUnit) : Decidable (LibrariesApart us) :=
  inferInstanceAs (Decidable (_ ∨ _))

/-- What the units of a file put into the model: the units of the libraries that they share, and
each its own. -/
structure Added (prototypes : SortedMap String (List String))
    (finders : SortedMap String ContractFunction) (us libraries : List BuildUnit)
    (own : BuildUnit → BuildUnit) : Prop where
  additions : ∀ u ∈ us, ((⟨finders, u⟩ : FoundUnit).prepared prototypes).additions =
    .ok (libraries ++ [own u])
  primary : ∀ u ∈ us, ((⟨finders, u⟩ : FoundUnit).prepared prototypes).primary = .ok (own u)
  key : ∀ u ∈ us, (own u).key = u.key
  /-- A unit that was split out has a longer name. -/
  apart : ∀ u ∈ us, own u ∉ libraries
  ownLibrary : ∀ u ∈ us, (∃ v ∈ libraries, v.key = u.key) ↔ u.IsOwnLibrary
  determined : ∀ u ∈ us, ∀ v ∈ us, u.key = v.key → u = v
  contract : ∀ u ∈ us, ∀ v ∈ us, u.primaryContract = v.primaryContract → u = v

namespace Added

variable {libraries : List BuildUnit} {own : BuildUnit → BuildUnit} {u v : BuildUnit}
  {m : BuildModel} {s t : BuildState} {k : String}

/-- The model after a unit and its libraries. -/
def step (libraries : List BuildUnit) (own : BuildUnit → BuildUnit) (m : BuildModel)
    (u : BuildUnit) : BuildModel :=
  (libraries ++ [own u]).foldl BuildModel.add m

theorem run_eq_ok_iff (h : Added prototypes finders us libraries own) (hvs : ∀ v ∈ vs, v ∈ us) :
    (addFound prototypes (foundWith finders vs)).run.run s = (.ok (), t) ↔
      t = { s with model := vs.foldl (step libraries own) s.model } := by
  have hadditions : additionsOf prototypes (foundWith finders vs) =
      .ok (vs.flatMap fun u => libraries ++ [own u]) := by
    unfold additionsOf foundWith
    induction vs with
    | nil => rfl
    | cons v vs ih =>
      rw [List.forall_mem_cons] at hvs
      exact appendAll_cons_eq_ok_iff.2 ⟨_, _, h.additions v hvs.1, ih hvs.2, rfl⟩
  have hfold : (vs.flatMap fun u => libraries ++ [own u]).foldl BuildModel.add s.model =
      vs.foldl (step libraries own) s.model := List.foldl_flatMap
  rw [adds_addFound, hadditions, ← hfold]
  constructor
  · rintro ⟨_, ⟨⟩, ht⟩
    exact ht
  · exact fun ht => ⟨_, rfl, ht⟩

theorem get?_step (h : Added prototypes finders us libraries own) (hu : u ∈ us) :
    (step libraries own m u).get? k =
      if k = u.key then some (own u)
      else (libraries.reverse.find? fun v => v.key = k).or (m.get? k) := by
  rw [step, BuildModel.get?_foldl_add, List.reverse_append, List.find?_append]
  by_cases hk : k = u.key
  · simp [hk, h.key u hu]
  · simp [hk, h.key u hu, Ne.symm hk]

/-- Two units can change places. -/
theorem step_comm (h : Added prototypes finders us libraries own) (hu : u ∈ us) (hv : v ∈ us)
    (hapart : LibrariesApart us) :
    step libraries own (step libraries own m u) v =
      step libraries own (step libraries own m v) u := by
  rcases hapart with hsame | hnone
  · rw [h.contract u hu v hv (hsame u hu v hv)]
  · have hfind : ∀ w ∈ us, (libraries.reverse.find? fun l => l.key = w.key) = none := by
      intro w hw
      rw [List.find?_eq_none]
      intro l hl hkey
      exact hnone w hw ((h.ownLibrary w hw).1 ⟨l, List.mem_reverse.1 hl, by simpa using hkey⟩)
    refine SortedMap.eq_of_get?_eq fun k => ?_
    rw [h.get?_step hv, h.get?_step hu, h.get?_step hu, h.get?_step hv]
    by_cases hku : k = u.key
    · by_cases hkv : k = v.key
      · rw [h.determined u hu v hv (hku.symm.trans hkv)]
      · rw [if_neg hkv, if_pos hku, if_pos hku, hku, hfind u hu, Option.none_or]
    · rw [if_neg hku, if_neg hku]
      by_cases hkv : k = v.key
      · rw [if_pos hkv, if_pos hkv, hkv, hfind v hv, Option.none_or]
      · rw [if_neg hkv, if_neg hkv]

/-- The last unit has its own primary contract in the model. -/
theorem get?_foldl_concat (h : Added prototypes finders us libraries own) (hu : u ∈ us)
    (front : List BuildUnit) :
    ((front ++ [u]).foldl (step libraries own) m).get? u.key = some (own u) := by
  rw [List.foldl_append, List.foldl_cons, List.foldl_nil, h.get?_step hu, if_pos rfl]

/-- A unit that is its own library loses its place to one that is split out of a later unit. -/
theorem get?_foldl_concat_ne (h : Added prototypes finders us libraries own) (hu : u ∈ us)
    (hv : v ∈ us) (hne : u.primaryContract ≠ v.primaryContract) (hown : u.IsOwnLibrary)
    (front : List BuildUnit) :
    ((front ++ [v]).foldl (step libraries own) m).get? u.key ≠ some (own u) := by
  have hkey : u.key ≠ v.key := fun hkey => hne (congrArg _ (h.determined u hu v hv hkey))
  obtain ⟨l, hl, hlkey⟩ := (h.ownLibrary u hu).2 hown
  rw [List.foldl_append, List.foldl_cons, List.foldl_nil, h.get?_step hv, if_neg hkey]
  intro hget
  cases hfind : libraries.reverse.find? fun w => w.key = u.key with
  | none =>
    have hnone := List.find?_eq_none.1 hfind l (List.mem_reverse.2 hl)
    simp [hlkey] at hnone
  | some w =>
    rw [hfind, Option.some_or, Option.some_inj] at hget
    have hw : w ∈ libraries := List.mem_reverse.1 (List.mem_of_find?_eq_some hfind)
    exact h.apart u hu (hget ▸ hw)

theorem exists_concat_perm (hu : u ∈ us) : ∃ front, us.Perm (front ++ [u]) := by
  obtain ⟨front, back, rfl⟩ := List.append_of_mem hu
  refine ⟨front ++ back, ?_⟩
  simpa using List.perm_middle.trans (List.perm_append_singleton u (front ++ back)).symm

/-- Where the libraries are not apart, a unit that is its own library stands beside another. -/
theorem exists_of_not_librariesApart (h : ¬ LibrariesApart us) :
    ∃ u ∈ us, ∃ v ∈ us, u.primaryContract ≠ v.primaryContract ∧ u.IsOwnLibrary := by
  unfold LibrariesApart at h
  push Not at h
  obtain ⟨⟨v, hv, w, hw, hvw⟩, u, hu, hown⟩ := h
  by_cases huv : u.primaryContract = v.primaryContract
  · exact ⟨u, hu, w, hw, huv ▸ hvw, hown⟩
  · exact ⟨u, hu, v, hv, huv, hown⟩

theorem orderIrrelevant_iff (h : Added prototypes finders us libraries own) :
    OrderIrrelevant prototypes finders us ↔ LibrariesApart us := by
  constructor
  · intro hirrelevant
    by_contra hapart
    obtain ⟨u, hu, v, hv, hne, hown⟩ := exists_of_not_librariesApart hapart
    obtain ⟨front, hfront⟩ := exists_concat_perm hu
    obtain ⟨front', hfront'⟩ := exists_concat_perm hv
    have hmodel : (front ++ [u]).foldl (step libraries own) ∅ =
        (front' ++ [v]).foldl (step libraries own) ∅ :=
      hirrelevant _ _ (.start ⟨"", ∅⟩) _ _ hfront hfront'
        ((h.run_eq_ok_iff fun w hw => hfront.mem_iff.2 hw).2 rfl)
        ((h.run_eq_ok_iff fun w hw => hfront'.mem_iff.2 hw).2 rfl)
    exact h.get?_foldl_concat_ne hu hv hne hown front' (hmodel ▸ h.get?_foldl_concat hu front)
  · intro hapart vs ws s t t' hvs hws ht ht'
    have hmem : ∀ v ∈ vs, v ∈ us := fun v hv => hvs.mem_iff.2 hv
    rw [h.run_eq_ok_iff hmem] at ht
    rw [h.run_eq_ok_iff fun w hw => hws.mem_iff.2 hw] at ht'
    rw [ht, ht']
    exact (hvs.symm.trans hws).foldl_eq' (fun u hu v hv m =>
      h.step_comm (hmem u hu) (hmem v hv) hapart) s.model

theorem primariesKept_iff (h : Added prototypes finders us libraries own) :
    PrimariesKept prototypes finders us ↔ LibrariesApart us := by
  constructor
  · intro hkept
    by_contra hapart
    obtain ⟨u, hu, v, hv, hne, hown⟩ := exists_of_not_librariesApart hapart
    obtain ⟨front, hfront⟩ := exists_concat_perm hv
    obtain ⟨w, hw, hget⟩ := hkept _ (.start ⟨"", ∅⟩) _ hfront
      ((h.run_eq_ok_iff fun w hw => hfront.mem_iff.2 hw).2 rfl) u hu
    obtain rfl : own u = w := Except.ok.inj ((h.primary u hu).symm.trans hw)
    exact h.get?_foldl_concat_ne hu hv hne hown front hget
  · intro hapart vs s t hvs ht u hu
    rw [h.run_eq_ok_iff fun v hv => hvs.mem_iff.2 hv] at ht
    refine ⟨own u, h.primary u hu, ?_⟩
    rw [ht]
    -- the unit can be moved behind all others
    obtain ⟨front, hfront⟩ := exists_concat_perm hu
    have hmodel := (hvs.symm.trans hfront).foldl_eq' (fun v hv w hw m =>
      h.step_comm (hvs.mem_iff.2 hv) (hvs.mem_iff.2 hw) hapart) s.model
    exact hmodel ▸ h.get?_foldl_concat hu front

end Added

section Collected

open Collect

variable {overrides : SortedMap String String} {book : AddressBook} {file configFile : String}
  {contracts : List String} {base u : BuildUnit} {setting : BuildSetting} {index : Nat}
  {isGenerated : Bool} {s s' : BuildState}

theorem underscore_notMem_address (h : UnitsOf overrides book file contracts base us) (hu : u ∈ us) :
    '_' ∉ u.address.toList := by
  obtain ⟨contract, -, address, haddress, rfl⟩ := exists_of_mem_forall₂ h.units.flip hu
  obtain ⟨n, rfl⟩ := AddressBook.exists_text_of_find haddress
  exact Address.underscore_notMem_text n

theorem underscore_notMem_record (h : UnitsOf overrides book file contracts base us)
    {c : ContractRecord} (hc : c ∈ base.contracts) : '_' ∉ c.address.toList := by
  obtain ⟨n, hn⟩ := AddressBook.exists_text_of_find (h.records c hc)
  rw [hn]
  exact Address.underscore_notMem_text n

theorem eq_of_primaryContract_eq (h : UnitsOf overrides book file contracts base us) {v : BuildUnit}
    (hu : u ∈ us) (hv : v ∈ us) (heq : u.primaryContract = v.primaryContract) : u = v := by
  obtain ⟨contract, -, address, haddress, rfl⟩ := exists_of_mem_forall₂ h.units.flip hu
  obtain ⟨contract', -, address', haddress', rfl⟩ := exists_of_mem_forall₂ h.units.flip hv
  obtain rfl : contract = contract' := heq
  rw [Except.ok.inj (haddress.symm.trans haddress')]

/-- A unit is its own library exactly if the unit of one of the libraries has its key. -/
theorem exists_key_eq_iff (h : UnitsOf overrides book file contracts base us) (hu : u ∈ us)
    {libraries : List BuildUnit}
    (hlibraries : ((⟨finders, u⟩ : FoundUnit).prepared prototypes).libraryUnits = .ok libraries) :
    (∃ v ∈ libraries, v.key = u.key) ↔ u.IsOwnLibrary := by
  have haddress := underscore_notMem_address h hu
  have hcontracts : u.contracts = base.contracts := by
    obtain ⟨_, -, _, -, rfl⟩ := exists_of_mem_forall₂ h.units.flip hu
    rfl
  constructor
  · rintro ⟨v, hv, hkey⟩
    obtain ⟨d, hd, hlisted, rfl⟩ := (BuildUnit.mem_libraryUnits_iff hlibraries).1 hv
    obtain ⟨c, hc, rfl⟩ := List.mem_map.1 hd
    have hrecord := underscore_notMem_record h (hcontracts ▸ hc)
    obtain ⟨hname, heq⟩ := BuildModel.key_injective hrecord haddress hkey
    exact ⟨heq ▸ hlisted, c, hc, hname, heq⟩
  · rintro ⟨hlisted, c, hc, hname, heq⟩
    refine ⟨_, (BuildUnit.mem_libraryUnits_iff hlibraries).2
      ⟨_, List.mem_map_of_mem hc, heq ▸ hlisted, rfl⟩, ?_⟩
    exact congrArg₂ BuildModel.key hname heq

/-- A unit that was split out has a longer name than the unit it comes from. -/
theorem notMem_libraryUnits_of_primary {v : BuildUnit} {libraries : List BuildUnit}
    (hlibraries : u.libraryUnits = .ok libraries) (hprimary : u.primary = .ok v) :
    v ∉ libraries := by
  intro hmem
  obtain ⟨d, -, hv⟩ := BuildUnit.primary_eq_ok_iff.1 hprimary
  obtain ⟨c, -, -, hc⟩ := (BuildUnit.mem_libraryUnits_iff hlibraries).1 hmem
  have hname : u.name = u.name ++ "_" ++ c.name := congrArg BuildUnit.name (hv.symm.trans hc)
  have hlength := congrArg String.length hname
  have hone : "_".length = 1 := rfl
  simp only [String.length_append] at hlength
  omega

/-- The units of the libraries do not depend on which unit of the file they are split out of. -/
theorem libraryUnits_prepared (h : UnitsOf overrides book file contracts base us) (hu : u ∈ us) :
    ((⟨finders, u⟩ : FoundUnit).prepared prototypes).libraryUnits =
      (base.withFinders finders).libraryUnits := by
  obtain ⟨_, -, _, -, rfl⟩ := exists_of_mem_forall₂ h.units.flip hu
  rfl

/-- What the units of one file put into the model. -/
theorem exists_added (h : UnitsOf overrides book file contracts base us)
    (hadd : ∃ t t', (addFound prototypes (foundWith finders us)).run.run t = (.ok (), t')) :
    ∃ libraries own, Added prototypes finders us libraries own := by
  obtain ⟨t, t', hrun⟩ := hadd
  obtain ⟨all, hall, -⟩ := (adds_addFound _ _ _ _).1 hrun
  let prepared (u : BuildUnit) : BuildUnit := (⟨finders, u⟩ : FoundUnit).prepared prototypes
  let shared := (base.withFinders finders).libraryUnits
  have hadditions : ∀ u ∈ us, ∃ libraries v, (prepared u).libraryUnits = .ok libraries ∧
      (prepared u).primary = .ok v := by
    intro u hu
    obtain ⟨vs, hvs⟩ := exists_of_appendAll hall (List.mem_map_of_mem hu)
    obtain ⟨libraries, v, hlibraries, hv, -⟩ := BuildUnit.additions_eq_ok_iff.1 hvs
    exact ⟨libraries, v, hlibraries, hv⟩
  have hlibraries : ∀ u ∈ us, (prepared u).libraryUnits = .ok (shared.toOption.getD []) := by
    intro u hu
    obtain ⟨libraries, -, hlibraries, -⟩ := hadditions u hu
    have hshared : (prepared u).libraryUnits = shared := libraryUnits_prepared h hu
    rw [← hshared, hlibraries]
    rfl
  have hprimary : ∀ u ∈ us, (prepared u).primary = .ok ((prepared u).primary.toOption.getD u) := by
    intro u hu
    obtain ⟨-, v, -, hv⟩ := hadditions u hu
    rw [hv]
    rfl
  refine ⟨shared.toOption.getD [], fun u => (prepared u).primary.toOption.getD u, ?_⟩
  constructor
  case additions =>
    intro u hu
    exact BuildUnit.additions_eq_ok_iff.2 ⟨_, _, hlibraries u hu, hprimary u hu, rfl⟩
  case primary => exact hprimary
  case key =>
    intro u hu
    obtain ⟨c, -, hv⟩ := BuildUnit.primary_eq_ok_iff.1 (hprimary u hu)
    rw [hv]
    rfl
  case apart =>
    exact fun u hu => notMem_libraryUnits_of_primary (hlibraries u hu) (hprimary u hu)
  case ownLibrary => exact fun u hu => exists_key_eq_iff h hu (hlibraries u hu)
  case determined =>
    intro u hu v hv hkey
    exact eq_of_primaryContract_eq h hu hv (BuildModel.key_injective
      (underscore_notMem_address h hu) (underscore_notMem_address h hv) hkey).1
  case contract => exact fun u hu v hv => eq_of_primaryContract_eq h hu hv

/-- The units collected for a file can be added in any order, and each primary contract stays as its
unit has it, exactly if no unit is built for a library of the others. -/
theorem order_iff_librariesApart
    (hus : (units setting file configFile index isGenerated).run.run s = (.ok us, s'))
    (hadd : ∃ t t', (addFound prototypes (foundWith finders us)).run.run t = (.ok (), t')) :
    (OrderIrrelevant prototypes finders us ↔ LibrariesApart us) ∧
      (PrimariesKept prototypes finders us ↔ LibrariesApart us) := by
  obtain ⟨-, base, -, hunits⟩ := units_eq_ok hus
  obtain ⟨libraries, own, hadded⟩ := exists_added hunits hadd
  exact ⟨hadded.orderIrrelevant_iff, hadded.primariesKept_iff⟩

section Linked

/-! Two contracts and a library in one file, which both contracts call. -/

def linkedOutput (file : String) : CompilerOutput :=
  let hole := "__$0123456789abcdef0123456789abcdef01$__"
  let references : LinkReferences := SortedMap.ofList
    [(file, SortedMap.ofList [("L", [⟨2, 20⟩])])]
  .ofFiles [(file, [.ofContract 1 "A" [], .ofContract 2 "B" [], .ofLibrary 3 "L"],
    [("A", .ofCode ("6073" ++ hole) references), ("B", .ofCode ("6173" ++ hole) references),
      ("L", .ofCode "73" none)])]

/-- A setting in which these contracts are configured for the file. Its copy has the same ones. -/
def linkedSetting (contracts : List String) : BuildSetting where
  config := {
    files := ["/p/A.sol"]
    fileToContract := SortedMap.ofList [("/p/A.sol", contracts)]
    configDir := "/p/out" }
  compiler := .ofOutputs (["/p/A.sol", "/p/autoFinder_A.sol"].map fun file =>
    (file, linkedOutput file))
  finders := ∅

/-- The units of the file for these contracts. -/
def linkedUnits (contracts : List String) : Build (List BuildUnit) :=
  units (linkedSetting contracts) "/p/A.sol" "/p/A.sol" 0 false

/-- Only the file, in its directory. -/
def linkedFiles : FileTree := .ofEntries "/p" [("/p/A.sol", .file [])]

/-- The primary contracts, whether the libraries are apart, and whether the units can be added. -/
def outcome (us : List BuildUnit) : List String × Bool × Bool :=
  (us.map BuildUnit.primaryContract, decide (LibrariesApart us),
    ((addFound ∅ (foundWith ∅ us)).run.run (.start linkedFiles)).1.toOption.isSome)

theorem exists_addFound_of_outcome (h : (outcome us).2.2 = true) :
    ∃ t t', (addFound ∅ (foundWith ∅ us)).run.run t = (.ok (), t') := by
  obtain ⟨⟨⟩, hunit⟩ := Option.isSome_iff_exists.1 h
  exact ⟨.start linkedFiles, _, Prod.ext (toOption_eq_some_iff.1 hunit) rfl⟩

theorem order_linkedContracts : ∃ us s',
    (linkedUnits ["A", "B"]).run.run (.start linkedFiles) = (.ok us, s') ∧
    us.map BuildUnit.primaryContract = ["A", "B"] ∧ OrderIrrelevant ∅ ∅ us ∧
    PrimariesKept ∅ ∅ us := by
  have hrun : ((linkedUnits ["A", "B"]).run.run (.start linkedFiles)).1.toOption.map outcome =
      some (["A", "B"], true, true) := by decide +kernel
  obtain ⟨us, s', hus, houtcome⟩ := exists_of_map_eq_some hrun
  have hadd := exists_addFound_of_outcome (congrArg (fun o => o.2.2) houtcome)
  have hapart : LibrariesApart us := of_decide_eq_true (congrArg (fun o => o.2.1) houtcome)
  obtain ⟨horder, hkept⟩ := order_iff_librariesApart hus hadd
  exact ⟨us, s', hus, congrArg Prod.fst houtcome, horder.2 hapart, hkept.2 hapart⟩

/-- The unit of the library loses its place to the one split out of the other unit. -/
theorem not_order_linkedLibrary : ∃ us s',
    (linkedUnits ["A", "L"]).run.run (.start linkedFiles) = (.ok us, s') ∧
    us.map BuildUnit.primaryContract = ["A", "L"] ∧
    (∃ t t', (addFound ∅ (foundWith ∅ us)).run.run t = (.ok (), t')) ∧
    ¬ OrderIrrelevant ∅ ∅ us ∧ ¬ PrimariesKept ∅ ∅ us := by
  have hrun : ((linkedUnits ["A", "L"]).run.run (.start linkedFiles)).1.toOption.map outcome =
      some (["A", "L"], false, true) := by decide +kernel
  obtain ⟨us, s', hus, houtcome⟩ := exists_of_map_eq_some hrun
  have hadd := exists_addFound_of_outcome (congrArg (fun o => o.2.2) houtcome)
  have hapart : ¬ LibrariesApart us := of_decide_eq_false (congrArg (fun o => o.2.1) houtcome)
  obtain ⟨-, base, -, hunits⟩ := units_eq_ok hus
  obtain ⟨libraries, own, hadded⟩ := exists_added hunits hadd
  exact ⟨us, s', hus, congrArg Prod.fst houtcome, hadd,
    fun horder => hapart (hadded.orderIrrelevant_iff.1 horder),
    fun hkept => hapart (hadded.primariesKept_iff.1 hkept)⟩

end Linked

end Collected

end Build

end ContractModel
