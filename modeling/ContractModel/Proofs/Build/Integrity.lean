import ContractModel.Proofs.Build.Links

/-! # The integrity of the model

A unit is entered under its contract and address, stands for that contract alone, and its libraries
have units. The contract has the address of the unit as long as it is declared in the file that the
unit was built from.
-/

namespace ContractModel

open Run

namespace BuildModel

/-- Every unit is entered under its own key and stands for exactly one contract, that of its name.
Its libraries are listed once each, and all have units. -/
structure WellKeyed (m : BuildModel) : Prop where
  key : ∀ k u, m.get? k = some u → k = u.key
  contract : ∀ u ∈ m.values, ∃ c, u.contracts = [c] ∧ c.name = u.primaryContract
  nodup : ∀ u ∈ m.values, u.libraryAddresses.Nodup
  libraries : ∀ u ∈ m.values, ∀ address ∈ u.libraryAddresses, ∃ v ∈ m.values, v.address = address

/-- Every contract has the address of its unit. -/
def AddressesAgree (m : BuildModel) : Prop :=
  ∀ u ∈ m.values, ∀ c ∈ u.contracts, c.address = u.address

/-- Every contract is declared in the file that its unit was built from, or the user sets its
address. -/
def DeclaredAtOrigin (overrides : SortedMap String String) (m : BuildModel) : Prop :=
  ∀ u ∈ m.values, ∀ c ∈ u.contracts,
    c.file = u.originFile ∨ (overrides.get? c.name).isSome

instance (m : BuildModel) : Decidable m.AddressesAgree :=
  inferInstanceAs (Decidable (∀ u ∈ m.values, ∀ c ∈ u.contracts, _ = _))

instance (overrides : SortedMap String String) (m : BuildModel) :
    Decidable (DeclaredAtOrigin overrides m) :=
  inferInstanceAs (Decidable (∀ u ∈ m.values, ∀ c ∈ u.contracts, _ ∨ _))

theorem mem_values_iff {m : BuildModel} {u : BuildUnit} :
    u ∈ m.values ↔ ∃ k, m.get? k = some u := by
  constructor
  · intro h
    obtain ⟨⟨k, u⟩, he, rfl⟩ := List.mem_map.1 h
    exact ⟨k, SortedMap.get?_eq_some_iff.2 he⟩
  · rintro ⟨k, hk⟩
    exact List.mem_map_of_mem (SortedMap.get?_eq_some_iff.1 hk)

theorem get?_foldl_add_empty (us : List BuildUnit) (k : String) :
    (us.foldl add (∅ : BuildModel)).get? k = us.reverse.find? fun u => u.key = k := by
  have hempty : (∅ : BuildModel).get? k = none := rfl
  rw [get?_foldl_add, hempty, Option.or_none]

end BuildModel

namespace BuildUnit

open AddressBook

variable {overrides : SortedMap String String} {book : AddressBook} {lo : Nat} {u : BuildUnit}
  {c : ContractRecord}

/-- A contract that its book knows in another file has another address, unless the user sets it. -/
theorem InBook.address_eq_iff (h : u.InBook overrides book) (htaken : TakenFrom lo book)
    (hc : u.contracts = [c]) :
    c.address = u.address ↔ c.file = u.originFile ∨ (overrides.get? c.name).isSome := by
  obtain ⟨d, hd, hname, hrecord⟩ := h.contract
  obtain rfl : d = c := List.singleton_inj.1 (hd.symm.trans hc)
  have hunit := h.address
  rw [← hname] at hunit
  constructor
  · intro heq
    cases hoverride : overrides.get? d.name with
    | some value => exact .inr rfl
    | none =>
      rw [heq] at hrecord
      exact .inl (htaken.file_eq hoverride hrecord hunit)
  · rintro (hfile | hsome)
    · rw [hfile] at hrecord
      exact Except.ok.inj (hrecord.symm.trans hunit)
    · exact find_eq_of_isSome hsome hrecord hunit

end BuildUnit

namespace Config

open Build BuildModel

variable {config : Config} {compiler : Compiler} {files : FileTree} {s : BuildState}

/-- A unit of the model is the last one that was added under its key, but for links. -/
theorem exists_addition_of_get? (h : config.build compiler files = (.ok (), s)) {k : String}
    {u : BuildUnit} (hu : s.model.get? k = some u) :
    ∃ v, (config.additions compiler files).reverse.find? (fun v => v.key = k) = some v ∧
      u.unlinked = v.unlinked := by
  obtain ⟨v, hv, heq⟩ := exists_of_unlinked_eq (build_eq_ok h).1 hu
  rw [get?_foldl_add_empty] at hv
  exact ⟨v, hv, heq⟩

/-- The last unit that was added under a key is in the model, but for links. -/
theorem exists_get?_of_addition (h : config.build compiler files = (.ok (), s)) {k : String}
    {v : BuildUnit}
    (hv : (config.additions compiler files).reverse.find? (fun v => v.key = k) = some v) :
    ∃ u, s.model.get? k = some u ∧ u.unlinked = v.unlinked := by
  rw [← get?_foldl_add_empty] at hv
  obtain ⟨u, hu, heq⟩ := exists_of_unlinked_eq (build_eq_ok h).1.symm hv
  exact ⟨u, hu, heq.symm⟩

theorem mem_and_key_of_find? {vs : List BuildUnit} {k : String} {v : BuildUnit}
    (h : vs.reverse.find? (fun v => v.key = k) = some v) : v ∈ vs ∧ v.key = k :=
  ⟨List.mem_reverse.1 (List.mem_of_find?_eq_some h), by simpa using List.find?_some h⟩

theorem exists_find?_key {vs : List BuildUnit} {v : BuildUnit} (h : v ∈ vs) :
    ∃ w, vs.reverse.find? (fun w => w.key = v.key) = some w := by
  refine Option.isSome_iff_exists.1 (List.find?_isSome.2 ?_)
  exact ⟨v, List.mem_reverse.2 h, by simp⟩

theorem exists_addition_of_mem_values (h : config.build compiler files = (.ok (), s))
    {u : BuildUnit} (hu : u ∈ s.model.values) :
    ∃ v ∈ config.additions compiler files, u.unlinked = v.unlinked := by
  obtain ⟨k, hk⟩ := mem_values_iff.1 hu
  obtain ⟨v, hv, heq⟩ := exists_addition_of_get? h hk
  exact ⟨v, (mem_and_key_of_find? hv).1, heq⟩

theorem wellKeyed_of_build (h : config.build compiler files = (.ok (), s)) :
    s.model.WellKeyed := by
  obtain ⟨-, ⟨next, htraced⟩, -⟩ := build_eq_ok h
  constructor
  · intro k u hu
    obtain ⟨v, hv, heq⟩ := exists_addition_of_get? h hu
    obtain ⟨hname, haddress, -⟩ := BuildUnit.eq_of_unlinked_eq heq
    rw [BuildUnit.key, hname, haddress]
    exact (mem_and_key_of_find? hv).2.symm
  · intro u hu
    obtain ⟨v, hv, heq⟩ := exists_addition_of_mem_values h hu
    obtain ⟨book, hbook, -⟩ := htraced.inBook v hv
    obtain ⟨c, hc, hcname, -⟩ := hbook.contract
    obtain ⟨d, hd, hdname, -⟩ := BuildUnit.exists_contract_of_unlinked_eq heq hc
    obtain ⟨hname, -⟩ := BuildUnit.eq_of_unlinked_eq heq
    exact ⟨d, hd, hdname.trans (hcname.trans hname.symm)⟩
  · intro u hu
    obtain ⟨v, hv, heq⟩ := exists_addition_of_mem_values h hu
    obtain ⟨book, hbook, -⟩ := htraced.inBook v hv
    obtain ⟨-, -, -, hlibraries⟩ := BuildUnit.eq_of_unlinked_eq heq
    rw [hlibraries]
    exact hbook.libraries
  · intro u hu address hlisted
    obtain ⟨v, hv, heq⟩ := exists_addition_of_mem_values h hu
    obtain ⟨-, -, -, hlibraries⟩ := BuildUnit.eq_of_unlinked_eq heq
    obtain ⟨w, hw, rfl⟩ := htraced.libraries v hv address (hlibraries ▸ hlisted)
    -- another unit may have taken the library's place, under the same address
    obtain ⟨w', hfind⟩ := exists_find?_key hw
    obtain ⟨hw', hkey⟩ := mem_and_key_of_find? hfind
    obtain ⟨u', hu', heq'⟩ := exists_get?_of_addition h hfind
    obtain ⟨-, haddress, -⟩ := BuildUnit.eq_of_unlinked_eq heq'
    refine ⟨u', mem_values_iff.2 ⟨_, hu'⟩, haddress.trans ?_⟩
    exact (key_injective (htraced.underscore_notMem hw') (htraced.underscore_notMem hw) hkey).2

/-- The model of every build that goes well is well keyed. Its contracts have the addresses of their
units exactly if each is declared in the file that its unit was built from, or has an address that
the user sets. -/
theorem integrity_iff_declaredAtOrigin (h : config.build compiler files = (.ok (), s)) :
    s.model.WellKeyed ∧
      (s.model.AddressesAgree ↔ s.model.DeclaredAtOrigin config.address) := by
  refine ⟨wellKeyed_of_build h, forall₂_congr fun u hu => ?_⟩
  obtain ⟨-, ⟨next, htraced⟩, -⟩ := build_eq_ok h
  obtain ⟨v, hv, heq⟩ := exists_addition_of_mem_values h hu
  obtain ⟨book, hbook, htaken⟩ := htraced.inBook v hv
  obtain ⟨c, hc, -⟩ := hbook.contract
  obtain ⟨d, hd, hname, hfile, haddress⟩ := BuildUnit.exists_contract_of_unlinked_eq heq hc
  obtain ⟨-, haddress', horigin, -⟩ := BuildUnit.eq_of_unlinked_eq heq
  rw [hd]
  simp only [List.mem_singleton, forall_eq]
  rw [hname, hfile, haddress, haddress', horigin]
  exact hbook.address_eq_iff htaken hc

/-- What is seen of the model of a build that goes well. -/
def seen {β : Type} (see : BuildModel → β) (run : Except Error Unit × BuildState) : Option β :=
  run.1.toOption.map fun _ => see run.2.model

theorem exists_of_seen {β : Type} {see : BuildModel → β} {run : Except Error Unit × BuildState}
    {b : β} (h : seen see run = some b) : ∃ s, run = (.ok (), s) ∧ see s.model = b := by
  obtain ⟨r, s⟩ := run
  obtain ⟨⟨⟩, hr, rfl⟩ := Option.map_eq_some_iff.1 h
  exact ⟨s, Prod.ext (toOption_eq_some_iff.1 hr) rfl, rfl⟩

def linkedBuild (contracts : List String) : Except Error Unit × BuildState :=
  (linkedSetting contracts).config.build (linkedSetting contracts).compiler linkedFiles

theorem integrity_linkedContracts : ∃ s, linkedBuild ["A", "B"] = (.ok (), s) ∧
    s.model.values.map BuildUnit.primaryContract = ["A", "B", "L"] ∧ s.model.WellKeyed ∧
    s.model.AddressesAgree := by
  have hrun : seen (fun m => (m.values.map BuildUnit.primaryContract, decide (m.DeclaredAtOrigin ∅)))
      (linkedBuild ["A", "B"]) = some (["A", "B", "L"], true) := by decide +kernel
  obtain ⟨s, hbuild, hseen⟩ := exists_of_seen hrun
  have horigin : s.model.DeclaredAtOrigin ∅ := of_decide_eq_true (congrArg Prod.snd hseen)
  obtain ⟨hkeyed, hagree⟩ := integrity_iff_declaredAtOrigin hbuild
  exact ⟨s, hbuild, congrArg Prod.fst hseen, hkeyed, hagree.2 horigin⟩

section Copied

/-! A file with a base in another one that stands where its copy will be. The compiler says that the
copy has its contract in a third file. -/

def copiedCompiler : Compiler :=
  let code : CompiledContract := .ofCode "6080" none
  .ofOutputs [
    ("/p/A.sol", .ofFiles [("/p/A.sol", [.ofContract 2 "A" [12]], [("A", code)]),
      ("/p/autoFinder_A.sol", [.ofContract 12 "A" []], [("A", code)])]),
    ("/p/autoFinder_A.sol", .ofFiles [("/p/autoFinder_A.sol", [.ofContract 2 "C" [12]], [("C", code)]),
      ("/p/B.sol", [.ofContract 12 "A" []], [("A", code)])])]

def copiedFiles : FileTree :=
  .ofEntries "/p" (["/p/A.sol", "/p/autoFinder_A.sol", "/p/B.sol"].map fun file => (file, .file []))

def copiedBuild : Except Error Unit × BuildState :=
  build { files := ["/p/A.sol"], configDir := "/p/out" } copiedCompiler copiedFiles

/-- The unit has the address of the contract that was in the copy's place, and its contract another
one. -/
theorem not_integrity_copied : ∃ s, copiedBuild = (.ok (), s) ∧ ¬ s.model.AddressesAgree := by
  have hrun : seen (fun m => decide m.AddressesAgree) copiedBuild = some false := by decide +kernel
  obtain ⟨s, hbuild, hseen⟩ := exists_of_seen hrun
  exact ⟨s, hbuild, of_decide_eq_false hseen⟩

end Copied

end Config

end ContractModel
