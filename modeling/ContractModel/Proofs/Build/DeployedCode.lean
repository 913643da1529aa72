import ContractModel.Proofs.Build.Configured
import ContractModel.Proofs.Link.BareCode

/-! # The code of configured contracts

A contract that is configured has deployed code in the model, unless the compiler gave none: either
the contract is declared in another file than its unit was built from, where code is not asked for,
or it has nothing but the prefix of Vyper bytecode, which is taken off only after the check.
-/

namespace ContractModel

open Run

namespace Collect

open Record

variable {setting : BuildSetting} {file configFile : String} {index : Nat} {isGenerated : Bool}
  {us : List BuildUnit} {s s' : BuildState}

/-- The unit was made for one of the contracts, and its records say of the output of the
compilation which contracts there are. Those are primary that are declared in the compiled file and
are among the contracts. -/
structure MadeFrom (setting : BuildSetting) (book : AddressBook) (contracts : List String)
    (c : Compilation) (u : BuildUnit) : Prop where
  origin : u.originFile = c.file
  primary : u.primaryContract ∈ contracts
  records : ∀ r ∈ u.contracts, Record.Describes setting book c
    (r.file == c.file && contracts.contains r.name) r.file r.name r

theorem exists_madeFrom_of_units
    (h : (units setting file configFile index isGenerated).run.run s = (.ok us, s')) :
    ∃ c t book, (compile setting file configFile index isGenerated).run.run s = (.ok c, t) ∧
      c.toolchain.lang = Language.ofPath configFile ∧
      ∀ u ∈ us, MadeFrom setting book (setting.config.contractsOf configFile) c u := by
  obtain ⟨c, t, found, reportFile, v, v', base, hcompile, -, hrecords, -, horigin, -, hunits⟩ :=
    exists_records_of_units h
  obtain ⟨hfile, -, hlang⟩ := compile_eq_ok hcompile
  obtain ⟨-, hall⟩ := Ensures.mapM (fun p => Record.ensures_ofContract v.book) _ _ _ _ rfl hrecords
  refine ⟨c, t, v.book, hcompile, hlang, fun u hu => ?_⟩
  obtain ⟨contract, hcontract, address, -, rfl⟩ := exists_of_mem_forall₂ hunits.flip hu
  refine ⟨horigin.trans hfile.symm, hcontract, fun r hr => ?_⟩
  obtain ⟨p, -, hp⟩ := exists_of_mem_forall₂ hall.flip hr
  rw [hp.file, hp.name, hfile]
  exact hp

end Collect

namespace Build

variable {setting : BuildSetting} {prototypes : SortedMap String (List String)} {file : String}
  {index : Nat} {files : List (String × Nat)} {found : List FoundUnit} {f : FoundUnit}
  {u v : BuildUnit} {vs : List BuildUnit} {c : Compilation} {s s' : BuildState}

/-- A file in the course of a build: the state that the build reaches it in, and the units that are
added for the contracts configured for it. -/
structure Stage where
  setting : BuildSetting
  file : String
  index : Nat
  start : BuildState
  units : List BuildUnit

/-- The file is compiled, and so is its instrumented copy. -/
inductive Stage.Compiles (stage : Stage) : Compilation → Prop
  | file {c : Compilation} {t : BuildState}
      (h : (Collect.compile stage.setting stage.file stage.file stage.index false).run.run
        stage.start = (.ok c, t)) : Compiles stage c
  | copy {c : Compilation} {us : List BuildUnit} {finders : SortedMap String ContractFunction}
      {copy : String} {t t' t'' : BuildState}
      (hunits : (Collect.units stage.setting stage.file stage.file stage.index false).run.run
        stage.start = (.ok us, t))
      (hinstrument : (Finders.instrument stage.file us).run.run t = (.ok (.ok (finders, copy)), t'))
      (h : (Collect.compile stage.setting copy stage.file stage.index true).run.run t' =
        (.ok c, t'')) : Compiles stage c

/-- The unit that is added for a contract. -/
def primaryOf (prototypes : SortedMap String (List String)) (f : FoundUnit) : Option BuildUnit :=
  (f.prepared prototypes).primary.toOption

/-- The files as far as all goes well. -/
def stagesFrom (setting : BuildSetting) (prototypes : SortedMap String (List String)) :
    List (String × Nat) → BuildState → List Stage
  | [], _ => []
  | (file, index) :: rest, s =>
    match (foundUnits setting file index).run.run s with
    | (.error _, _) => []
    | (.ok found, t) =>
      match additionsOf prototypes found with
      | .error _ => []
      | .ok vs =>
        ⟨setting, file, index, s, found.filterMap (primaryOf prototypes)⟩ ::
          stagesFrom setting prototypes rest { t with model := vs.foldl BuildModel.add t.model }

theorem exists_madeFrom_of_foundUnits {stage : Stage}
    (h : (foundUnits stage.setting stage.file stage.index).run.run stage.start = (.ok found, s')) :
    ∃ c book, stage.Compiles c ∧ c.toolchain.lang = Language.ofPath stage.file ∧
      ∀ f ∈ found, Collect.MadeFrom stage.setting book
        (stage.setting.config.contractsOf stage.file) c f.unit := by
  obtain ⟨us, t, hus, h⟩ := bind_eq_ok_iff.1 h
  obtain ⟨_, t', hcheck, h⟩ := bind_eq_ok_iff.1 h
  obtain ⟨-, rfl⟩ := ofExcept_eq_ok_iff.1 hcheck
  obtain ⟨c, t', book, hcompile, hlang, hmade⟩ := Collect.exists_madeFrom_of_units hus
  have hfound {finders : SortedMap String ContractFunction} {us : List BuildUnit} {c : Compilation}
      {book : AddressBook} (hmade : ∀ u ∈ us, Collect.MadeFrom stage.setting book
        (stage.setting.config.contractsOf stage.file) c u) :
      ∀ f ∈ foundWith finders us, Collect.MadeFrom stage.setting book
        (stage.setting.config.contractsOf stage.file) c f.unit :=
    List.forall_mem_map.2 hmade
  split at h
  · rcases Finders.instrumented_cases h with
      ⟨-, rfl, -⟩ | ⟨-, -, rfl, -⟩ | ⟨finders, copy, u, vs, hinstrument, hvs, rfl⟩
    · exact ⟨c, book, .file hcompile, hlang, nofun⟩
    · exact ⟨c, book, .file hcompile, hlang, hfound hmade⟩
    · obtain ⟨d, t'', book', hcompile', hlang', hmade'⟩ := Collect.exists_madeFrom_of_units hvs
      exact ⟨d, book', .copy hus hinstrument hcompile', hlang', hfound hmade'⟩
  · obtain ⟨rfl, rfl⟩ := pure_eq_ok_iff.1 h
    exact ⟨c, book, .file hcompile, hlang, hfound hmade⟩

theorem exists_foundUnits_of_mem {stage : Stage} (h : stage ∈ stagesFrom setting prototypes files s) :
    (stage.file, stage.index) ∈ files ∧ stage.setting = setting ∧ ∃ found t,
      (foundUnits stage.setting stage.file stage.index).run.run stage.start = (.ok found, t) ∧
      stage.units = found.filterMap (primaryOf prototypes) := by
  induction files generalizing s with
  | nil => cases h
  | cons p files ih =>
    unfold stagesFrom at h
    split at h
    · cases h
    · next found t hfound =>
      split at h
      · cases h
      · rcases List.mem_cons.1 h with rfl | h
        · exact ⟨List.mem_cons_self, rfl, found, t, hfound, rfl⟩
        · obtain ⟨hmem, hrest⟩ := ih h
          exact ⟨List.mem_cons_of_mem _ hmem, hrest⟩

/-- Every file is reached, and a unit is added for each of the contracts configured for it. -/
theorem exists_stage_of_files
    (h : (files.forM fun p => buildFile setting prototypes p.1 p.2).run.run s = (.ok (), s'))
    (hfile : (file, index) ∈ files) {contract : String}
    (hcontract : contract ∈ setting.config.contractsOf file) :
    ∃ stage ∈ stagesFrom setting prototypes files s, stage.file = file ∧
      ∃ v ∈ stage.units, v.primaryContract = contract := by
  induction files generalizing s with
  | nil => cases hfile
  | cons p files ih =>
    obtain ⟨_, t, hbuilt, h⟩ := bind_eq_ok_iff.1 h
    obtain ⟨found, t', vs, hfound, hvs, rfl, -⟩ := addsUp_buildFile hbuilt
    simp only [stagesFrom, hfound, hvs]
    rcases List.mem_cons.1 hfile with rfl | hfile
    · refine ⟨_, List.mem_cons_self, rfl, ?_⟩
      obtain ⟨source, finders, base, us, book, -, rfl, hunits, -⟩ := foundUnits_eq_ok hfound
      obtain ⟨u, hu, address, -, rfl⟩ := exists_of_mem_forall₂ hunits.units hcontract
      have hf : (⟨finders, base.forContract contract address⟩ : FoundUnit) ∈ foundWith finders us :=
        List.mem_map_of_mem hu
      obtain ⟨front, hfront⟩ := exists_of_appendAll hvs hf
      obtain ⟨libraries, v, -, hv, -⟩ := BuildUnit.additions_eq_ok_iff.1 hfront
      refine ⟨v, List.mem_filterMap.2 ⟨_, hf, toOption_eq_some_iff.2 hv⟩, ?_⟩
      obtain ⟨d, -, rfl⟩ := BuildUnit.primary_eq_ok_iff.1 hv
      rfl
    · obtain ⟨stage, hstage, hrest⟩ := ih h hfile
      exact ⟨stage, List.mem_cons_of_mem _ hstage, hrest⟩

/-- The unit that is added for a contract has the record of that contract, whatever links set in
it later. -/
theorem exists_record_of_primaryOf (hv : primaryOf prototypes f = some v)
    (hu : u.unlinked = v.unlinked) : ∃ d, u.contracts = [d] ∧
      u.primaryContract = f.unit.primaryContract ∧ u.originFile = f.unit.originFile ∧
      ∃ r ∈ f.unit.contracts, d.name = u.primaryContract ∧ d.name = r.name ∧ d.file = r.file ∧
        d.lang = r.lang ∧ d.bytecode = r.bytecode := by
  obtain ⟨e, he, rfl⟩ := BuildUnit.primary_eq_ok_iff.1 (toOption_eq_some_iff.1 hv)
  obtain ⟨he, hname⟩ := List.mem_filter.1 (he ▸ List.mem_singleton_self e)
  obtain ⟨r, hr, rfl⟩ := List.mem_map.1 he
  obtain ⟨hprimary, -, horigin, -⟩ := BuildUnit.eq_of_unlinked_eq hu
  have hcontracts := congrArg BuildUnit.contracts hu
  dsimp only [BuildUnit.unlinked] at hcontracts
  rw [List.map_singleton] at hcontracts
  obtain ⟨d, hd, heq⟩ := List.map_eq_singleton_iff.1 hcontracts
  have hname' : d.name = r.name := (congrArg ContractRecord.name heq :)
  have hfile : d.file = r.file := (congrArg ContractRecord.file heq :)
  have hlang : d.lang = r.lang := (congrArg ContractRecord.lang heq :)
  have hbytecode : d.bytecode = r.bytecode := (congrArg ContractRecord.bytecode heq :)
  have hprimary' : r.name = f.unit.primaryContract := eq_of_beq hname
  exact ⟨d, hd, hprimary, horigin, r, hr, hname'.trans (hprimary'.trans hprimary.symm), hname', hfile,
    hlang, hbytecode⟩

end Build

namespace Config

open Build

variable {config : Config} {compiler : Compiler} {files : FileTree} {s : BuildState}

/-- The configured files in the order of the build. -/
def stages (config : Config) (compiler : Compiler) (files : FileTree) : List Stage :=
  match config.functionFinders files, config.prototypes with
  | .ok finders, .ok prototypes =>
    stagesFrom ⟨config, compiler, finders⟩ prototypes config.builtFiles (.start files)
  | _, _ => []

/-- In a build that goes well every contract that is configured for a file gets a unit. Its code is
empty exactly if the compiler gave none, and for a contract of the compiled file only if that is the
prefix of Vyper bytecode alone. -/
theorem deployedCode_eq_empty_iff (h : config.build compiler files = (.ok (), s)) :
    (∀ file ∈ config.files, ∀ contract ∈ config.contractsOf file,
      ∃ stage ∈ config.stages compiler files, stage.file = file ∧
        ∃ v ∈ stage.units, v.primaryContract = contract) ∧
    ∀ stage ∈ config.stages compiler files, ∀ v ∈ stage.units, ∀ u : BuildUnit,
      u.unlinked = v.unlinked → ∃ c d compiled, stage.Compiles c ∧ u.originFile = c.file ∧
        u.contracts = [d] ∧ d.name = u.primaryContract ∧ d.lang = Language.ofPath stage.file ∧
        c.output.contract? d.file d.name = some compiled ∧
        (d.bytecode = "" ↔ compiled.deployedCode.IsBare d.lang) ∧
        (d.file = u.originFile → compiled.deployedCode.IsBare d.lang →
          d.lang = .vyper ∧ compiled.deployedCode.object = "0x") := by
  constructor
  · intro file hfile contract hcontract
    obtain ⟨r, t, hrun, -⟩ := exists_buildAll_of_build h
    obtain ⟨finders, prototypes, t', hfinders, hprototypes, hbuilt, -⟩ := buildAll_eq_ok hrun
    obtain ⟨index, hindex⟩ := mem_fst_builtFiles hfile
    unfold stages
    rw [hfinders, hprototypes]
    exact exists_stage_of_files hbuilt hindex hcontract
  · intro stage hstage v hv u hu
    unfold stages at hstage
    split at hstage
    · next finders prototypes _ _ =>
      obtain ⟨-, hsetting, found, t, hfound, hunits⟩ := exists_foundUnits_of_mem hstage
      obtain ⟨c, book, hcompiles, hlang, hmade⟩ := exists_madeFrom_of_foundUnits hfound
      rw [hunits] at hv
      obtain ⟨f, hf, hprimary⟩ := List.mem_filterMap.1 hv
      obtain ⟨d, hd, hname, horigin, r, hr, hdname, hrname, hrfile, hrlang, hrbytecode⟩ :=
        exists_record_of_primaryOf hprimary hu
      have hmade := hmade f hf
      have hdescribes := hmade.records r hr
      obtain ⟨compiled, linked, hcompiled, hlink, hbytecode, hcode⟩ := hdescribes.code
      have horigin := horigin.trans hmade.origin
      refine ⟨c, d, compiled, hcompiles, horigin, hd, hdname, ?_, ?_, ?_, ?_⟩
      · rw [hrlang, hdescribes.lang, hlang]
      · rw [hrfile, hrname, hcompiled]
      · rw [hrbytecode, hbytecode, hrlang]
        exact Linking.normalizeBytecode_eq_empty_iff_isBare hlink
      · intro hfile hbare
        refine Linking.eq_prefix_of_isBare hlink (hcode ?_) hbare
        rw [← hrfile, hfile, horigin, ← hrname, hdname, hname]
        simpa using hmade.primary
    · cases hstage

section Mixed

/-! A Solidity and a Vyper file, with what the compiler gives as the code of the Vyper contract. -/

def mixedCompiler (object : String) : Compiler :=
  let token (file : String) : String × CompilerOutput :=
    (file, .ofFiles [(file, [.ofContract 1 "Token" []], [("Token", .ofCode "6080" none)])])
  .ofOutputs [token "/p/Token.sol", token "/p/autoFinder_Token.sol",
    ("/p/Vault.vy", .ofFiles [("/p/Vault.vy", [], [("Vault", .ofCode object none)])])]

def mixedFiles : FileTree :=
  .ofEntries "/p" (["/p/Token.sol", "/p/Vault.vy"].map fun file => (file, .file []))

def mixedConfig : Config where
  files := ["/p/Token.sol", "/p/Vault.vy"]
  configDir := "/p/out"

def bytecodes (m : BuildModel) : List (String × List String) :=
  m.values.map fun u => (u.originFile, u.contracts.map ContractRecord.bytecode)

theorem deployedCode_mixed : ∃ s,
    mixedConfig.build (mixedCompiler "0x6080") mixedFiles = (.ok (), s) ∧
    bytecodes s.model = [("/p/autoFinder_Token.sol", ["6080"]), ("/p/Vault.vy", ["6080"])] ∧
    ∀ file ∈ mixedConfig.files, ∃ stage ∈ mixedConfig.stages (mixedCompiler "0x6080") mixedFiles,
      stage.file = file ∧ ∃ v ∈ stage.units, ∃ c d compiled, stage.Compiles c ∧
        v.contracts = [d] ∧ c.output.contract? d.file d.name = some compiled ∧
        (d.bytecode = "" ↔ compiled.deployedCode.IsBare d.lang) := by
  have hrun : seen bytecodes (mixedConfig.build (mixedCompiler "0x6080") mixedFiles) =
      some [("/p/autoFinder_Token.sol", ["6080"]), ("/p/Vault.vy", ["6080"])] := by decide +kernel
  obtain ⟨s, hbuild, hseen⟩ := exists_of_seen hrun
  obtain ⟨hreached, hcode⟩ := deployedCode_eq_empty_iff hbuild
  refine ⟨s, hbuild, hseen, fun file hfile => ?_⟩
  obtain ⟨contract, hcontract⟩ : ∃ contract, contract ∈ mixedConfig.contractsOf file := by
    have hall : ∀ file ∈ mixedConfig.files, mixedConfig.contractsOf file ≠ [] := by decide +kernel
    exact List.exists_mem_of_ne_nil _ (hall file hfile)
  obtain ⟨stage, hstage, hstagefile, v, hv, -⟩ := hreached file hfile contract hcontract
  obtain ⟨c, d, compiled, hcompiles, -, hd, -, -, hcompiled, hempty, -⟩ :=
    hcode stage hstage v hv v rfl
  exact ⟨stage, hstage, hstagefile, v, hv, c, d, compiled, hcompiles, hd, hcompiled, hempty⟩

/-- The prefix alone passes for code, and then it is taken off. -/
theorem not_deployedCode_prefix : ∃ s,
    mixedConfig.build (mixedCompiler "0x") mixedFiles = (.ok (), s) ∧
    mixedConfig.contractsOf "/p/Vault.vy" = ["Vault"] ∧
    ∃ u ∈ s.model.values, u.primaryContract = "Vault" ∧ u.originFile = "/p/Vault.vy" ∧
      ∀ d ∈ u.contracts, d.bytecode = "" := by
  have hrun : seen (fun m => decide (∃ u ∈ m.values, u.primaryContract = "Vault" ∧
        u.originFile = "/p/Vault.vy" ∧ ∀ d ∈ u.contracts, d.bytecode = ""))
      (mixedConfig.build (mixedCompiler "0x") mixedFiles) = some true := by decide +kernel
  obtain ⟨s, hbuild, hseen⟩ := exists_of_seen hrun
  exact ⟨s, hbuild, by decide +kernel, of_decide_eq_true hseen⟩

end Mixed

end Config

end ContractModel
