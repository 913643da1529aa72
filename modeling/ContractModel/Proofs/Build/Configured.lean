import ContractModel.Proofs.Build.Integrity

/-! # The configured contracts in the model

A contract that is configured for a file has a unit that was built from the file or its copy, unless
the user sets an address for its name and a contract of that name in another file comes later.
-/

namespace ContractModel

open Run

namespace Build

open AddressBook

variable {overrides : SortedMap String String} {lo hi : Nat} {vs : List BuildUnit}
  {v w : BuildUnit}

/-- Units for one contract whose address the user sets have one key. -/
theorem Traced.key_eq_iff (h : Traced overrides lo hi vs) (hv : v ∈ vs) (hw : w ∈ vs)
    (hsome : (overrides.get? w.primaryContract).isSome) :
    v.key = w.key ↔ v.primaryContract = w.primaryContract := by
  constructor
  · intro hkey
    exact (BuildModel.key_injective (h.underscore_notMem hv) (h.underscore_notMem hw) hkey).1
  · intro hname
    obtain ⟨book, hbook, -⟩ := h.inBook v hv
    obtain ⟨book', hbook', -⟩ := h.inBook w hw
    have hfind := hbook.address
    rw [hname] at hfind
    exact congrArg₂ BuildModel.key hname (find_eq_of_isSome hsome hfind hbook'.address)

instance (current file source : String) : Decidable (IsFileOrCopy current file source) :=
  inferInstanceAs (Decidable (_ ∨ _))

end Build

namespace Config

open Build BuildModel

variable {config : Config} {compiler : Compiler} {files : FileTree} {s : BuildState}
  {contract : String} {v w : BuildUnit}

/-- The last unit that is added for a contract. -/
def lastAddition (config : Config) (compiler : Compiler) (files : FileTree) (contract : String) :
    Option BuildUnit :=
  (config.additions compiler files).reverse.find? fun v => v.primaryContract = contract

/-- Each contract that is configured for a file has a unit that was built from the file or from its
copy. -/
def ConfiguredKept (config : Config) (files : FileTree) (m : BuildModel) : Prop :=
  ∀ file ∈ config.files, ∀ contract ∈ config.contractsOf file, ∃ u ∈ m.values,
    u.primaryContract = contract ∧ IsFileOrCopy files.current file u.originFile

instance (config : Config) (files : FileTree) (m : BuildModel) :
    Decidable (ConfiguredKept config files m) :=
  inferInstanceAs (Decidable (∀ file ∈ config.files, ∀ contract ∈ config.contractsOf file, _))

/-- For each contract that is configured for a file and whose address the user sets, the last unit
comes from the file or from its copy. -/
def OverriddenLast (config : Config) (compiler : Compiler) (files : FileTree) : Prop :=
  ∀ file ∈ config.files, ∀ contract ∈ config.contractsOf file,
    (config.address.get? contract).isSome →
      ∀ v ∈ config.lastAddition compiler files contract, IsFileOrCopy files.current file v.originFile

instance (config : Config) (compiler : Compiler) (files : FileTree) :
    Decidable (OverriddenLast config compiler files) :=
  inferInstanceAs (Decidable (∀ file ∈ config.files, ∀ contract ∈ config.contractsOf file, _ →
    ∀ v ∈ _, _))

theorem exists_lastAddition (hv : v ∈ config.additions compiler files) :
    ∃ w, config.lastAddition compiler files v.primaryContract = some w := by
  refine Option.isSome_iff_exists.1 (List.find?_isSome.2 ?_)
  exact ⟨v, List.mem_reverse.2 hv, by simp⟩

theorem mem_and_name_of_lastAddition (h : config.lastAddition compiler files contract = some v) :
    v ∈ config.additions compiler files ∧ v.primaryContract = contract :=
  ⟨List.mem_reverse.1 (List.mem_of_find?_eq_some h), by simpa using List.find?_some h⟩

/-- For a contract whose address the user sets, the last unit is the last one under its key. -/
theorem find?_key_of_lastAddition (h : config.build compiler files = (.ok (), s))
    (hsome : (config.address.get? contract).isSome)
    (hlast : config.lastAddition compiler files contract = some v) :
    (config.additions compiler files).reverse.find? (fun w => w.key = v.key) = some v := by
  obtain ⟨-, ⟨next, htraced⟩, -⟩ := build_eq_ok h
  obtain ⟨hv, rfl⟩ := mem_and_name_of_lastAddition hlast
  rw [← hlast, lastAddition]
  refine List.find?_congr fun w hw => ?_
  rw [decide_eq_decide]
  exact htraced.key_eq_iff (List.mem_reverse.1 hw) hv hsome

/-- The units of a contract whose address the user does not set share their key only with units from
the same file. -/
theorem exists_unit_of_notOverridden (h : config.build compiler files = (.ok (), s))
    (hv : v ∈ config.additions compiler files) (hnone : config.address.get? v.primaryContract = none) :
    ∃ u ∈ s.model.values, u.primaryContract = v.primaryContract ∧ u.originFile = v.originFile := by
  obtain ⟨-, ⟨next, htraced⟩, -⟩ := build_eq_ok h
  obtain ⟨w, hfind⟩ := exists_find?_key hv
  obtain ⟨hw, hkey⟩ := mem_and_key_of_find? hfind
  obtain ⟨u, hu, heq⟩ := exists_get?_of_addition h hfind
  obtain ⟨hname, -, horigin, -⟩ := BuildUnit.eq_of_unlinked_eq heq
  refine ⟨u, mem_values_iff.2 ⟨_, hu⟩, hname.trans ?_, horigin.trans ?_⟩
  · exact (key_injective (htraced.underscore_notMem hw) (htraced.underscore_notMem hv) hkey).1
  · exact (htraced.origin v hv w hw hkey.symm hnone).symm

/-- The unit of a contract whose address the user sets is the last one added for it. -/
theorem exists_unit_of_lastAddition (h : config.build compiler files = (.ok (), s))
    (hsome : (config.address.get? contract).isSome)
    (hlast : config.lastAddition compiler files contract = some v) :
    ∃ u ∈ s.model.values, u.primaryContract = contract ∧ u.originFile = v.originFile := by
  obtain ⟨u, hu, heq⟩ := exists_get?_of_addition h (find?_key_of_lastAddition h hsome hlast)
  obtain ⟨hname, -, horigin, -⟩ := BuildUnit.eq_of_unlinked_eq heq
  obtain ⟨-, hcontract⟩ := mem_and_name_of_lastAddition hlast
  exact ⟨u, mem_values_iff.2 ⟨_, hu⟩, hname.trans hcontract, horigin⟩

/-- There is no other unit for such a contract. -/
theorem originFile_eq_of_lastAddition (h : config.build compiler files = (.ok (), s))
    (hsome : (config.address.get? contract).isSome)
    (hlast : config.lastAddition compiler files contract = some v) {u : BuildUnit}
    (hu : u ∈ s.model.values) (hcontract : u.primaryContract = contract) :
    u.originFile = v.originFile := by
  obtain ⟨-, ⟨next, htraced⟩, -⟩ := build_eq_ok h
  obtain ⟨k, hk⟩ := mem_values_iff.1 hu
  obtain ⟨w, hfind, heq⟩ := exists_addition_of_get? h hk
  obtain ⟨hw, rfl⟩ := mem_and_key_of_find? hfind
  obtain ⟨hname, -, horigin, -⟩ := BuildUnit.eq_of_unlinked_eq heq
  obtain ⟨hv, hvname⟩ := mem_and_name_of_lastAddition hlast
  have hkey : w.key = v.key := by
    rw [htraced.key_eq_iff hw hv (hvname.symm ▸ hsome), ← hname, hcontract, hvname]
  rw [hkey, find?_key_of_lastAddition h hsome hlast] at hfind
  rw [horigin, Option.some.inj hfind]

/-- In a build that goes well no configured contract is lost exactly if, for each whose address the
user sets, the last unit added comes from its file or the copy of it. -/
theorem configuredKept_iff_overriddenLast (h : config.build compiler files = (.ok (), s)) :
    config.ConfiguredKept files s.model ↔ config.OverriddenLast compiler files := by
  constructor
  · intro hkept file hfile contract hcontract hsome v hlast
    obtain ⟨u, hu, hname, horigin⟩ := hkept file hfile contract hcontract
    rwa [originFile_eq_of_lastAddition h hsome hlast hu hname] at horigin
  · intro hlast file hfile contract hcontract
    obtain ⟨-, -, hprimaries⟩ := build_eq_ok h
    obtain ⟨v, hv, rfl, horigin⟩ := hprimaries file hfile contract hcontract
    cases hoverride : config.address.get? v.primaryContract with
    | none =>
      obtain ⟨u, hu, hname, heq⟩ := exists_unit_of_notOverridden h hv hoverride
      exact ⟨u, hu, hname, heq ▸ horigin⟩
    | some value =>
      have hsome : (config.address.get? v.primaryContract).isSome := by rw [hoverride]; rfl
      obtain ⟨w, hw⟩ := exists_lastAddition hv
      obtain ⟨u, hu, hname, heq⟩ := exists_unit_of_lastAddition h hsome hw
      refine ⟨u, hu, hname, ?_⟩
      rw [heq]
      exact hlast file hfile _ hcontract hsome w hw

section Tokens

/-! Files that each have a contract of one name, whose address the user sets. -/

def tokenConfig (files : List String) : Config where
  files := files
  address := SortedMap.ofList [("Token", "0x1234")]
  configDir := "/o"

/-- Every file has the contract, and so has its copy. -/
def tokenCompiler : Compiler :=
  let code : CompiledContract := .ofCode "6080" none
  .ofOutputs (["/1/Token.sol", "/1/autoFinder_Token.sol", "/2/Token.sol",
    "/2/autoFinder_Token.sol"].map fun file =>
      (file, .ofFiles [(file, [.ofContract 1 "Token" []], [("Token", code)])]))

def tokenFiles : FileTree :=
  .ofEntries "/" [("/1/Token.sol", .file []), ("/2/Token.sol", .file [])]

theorem configured_token : ∃ s,
    (tokenConfig ["/1/Token.sol"]).build tokenCompiler tokenFiles = (.ok (), s) ∧
    s.model.values.map BuildUnit.originFile = ["/1/autoFinder_Token.sol"] ∧
    (tokenConfig ["/1/Token.sol"]).ConfiguredKept tokenFiles s.model := by
  have hrun : seen (fun m => m.values.map BuildUnit.originFile)
      ((tokenConfig ["/1/Token.sol"]).build tokenCompiler tokenFiles) =
        some ["/1/autoFinder_Token.sol"] := by decide +kernel
  have hlast : (tokenConfig ["/1/Token.sol"]).OverriddenLast tokenCompiler tokenFiles := by
    decide +kernel
  obtain ⟨s, hbuild, hseen⟩ := exists_of_seen hrun
  exact ⟨s, hbuild, hseen, (configuredKept_iff_overriddenLast hbuild).2 hlast⟩

/-- The contract of the first file is lost to that of the second one. -/
theorem not_configured_tokens : ∃ s,
    (tokenConfig ["/1/Token.sol", "/2/Token.sol"]).build tokenCompiler tokenFiles = (.ok (), s) ∧
    ¬ (tokenConfig ["/1/Token.sol", "/2/Token.sol"]).ConfiguredKept tokenFiles s.model := by
  have hrun : seen (fun m => decide
        ((tokenConfig ["/1/Token.sol", "/2/Token.sol"]).ConfiguredKept tokenFiles m))
      ((tokenConfig ["/1/Token.sol", "/2/Token.sol"]).build tokenCompiler tokenFiles) =
        some false := by decide +kernel
  obtain ⟨s, hbuild, hseen⟩ := exists_of_seen hrun
  exact ⟨s, hbuild, of_decide_eq_false hseen⟩

end Tokens

end Config

end ContractModel
