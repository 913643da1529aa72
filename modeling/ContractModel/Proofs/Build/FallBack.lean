import ContractModel.Proofs.Build.Blind

/-! # Falling back

A build in which all files fall back comes to the model of a build that does not instrument at all,
as long as neither the configuration nor the compiler speaks of hidden names: all that is left of
the attempts are hidden files.
-/

namespace ContractModel

open Run FileTree

open ContractModel.Path (Visible EndsHidden)

namespace Copies

variable {files : FileTree} {paths written : List String} {copies : List (String × Bytes)}

theorem agreeOutside_removeAll (h : ∀ path ∈ paths, EndsHidden path) :
    AgreeOutside files (removeAll files paths) := by
  unfold removeAll
  induction paths generalizing files with
  | nil => exact .refl files
  | cons path paths ih =>
    obtain ⟨hpath, hpaths⟩ := List.forall_mem_cons.1 h
    have hone : AgreeOutside files ((files.remove path).toOption.getD files) := by
      cases hremove : files.remove path with
      | error fault => exact .refl files
      | ok files' => exact agreeOutside_remove hpath hremove
    exact hone.trans (ih hpaths)

theorem agreeOutside_writeAll (device : Device) (hwritten : ∀ path ∈ written, EndsHidden path)
    (hcopies : ∀ copy ∈ copies, EndsHidden copy.1) :
    AgreeOutside files (writeAll device files written copies).2 := by
  induction copies generalizing files written with
  | nil => exact .refl files
  | cons copy copies ih =>
    obtain ⟨hcopy, hcopies⟩ := List.forall_mem_cons.1 hcopies
    have hone : AgreeOutside files (device.write files copy.1 copy.2).2 := by
      rcases write_on_device device files copy.1 copy.2 with heq | ⟨kept, hwrite⟩
      · rw [heq]
        exact .refl files
      · exact agreeOutside_write hcopy hwrite
    unfold writeAll
    split
    · next files' hwrite =>
      rw [hwrite] at hone
      refine hone.trans (ih ?_ hcopies)
      exact List.forall_mem_append.2 ⟨hwritten, List.forall_mem_singleton.2 hcopy⟩
    · next fault files' hwrite =>
      rw [hwrite] at hone
      refine hone.trans (agreeOutside_removeAll fun path hpath => hwritten path ?_)
      exact (List.mem_filter.1 hpath).1

theorem endsHidden_of_renderAll {edits : List (String × EditScript)}
    (h : renderAll files edits = .ok copies) : ∀ copy ∈ copies, EndsHidden copy.1 := by
  intro copy hcopy
  obtain ⟨source, -, hpath, -⟩ := exists_of_mem_forall₂ (forall₂_of_renderAll h).flip hcopy
  rw [hpath]
  exact Path.endsHidden_pathOf source.1

/-- Only hidden files are written, and taken away again on a failure. -/
theorem agreeOutside_write (files : FileTree) (edits : SourceEdits) :
    AgreeOutside files (write files edits).2 := by
  unfold write writeOn
  split
  · exact .refl files
  · next copies hcopies => exact agreeOutside_writeAll _ nofun (endsHidden_of_renderAll hcopies)

end Copies

/-- The directory and those above it are there. -/
def HasDirectory (directory : String) (s : BuildState) : Prop :=
  s.files.createDirectories directory = .ok s.files

/-- The directory is there, and the files are those of the tree, but for hidden ones. -/
structure Untouched (directory : String) (t : FileTree) (s : BuildState) : Prop where
  hasDirectory : HasDirectory directory s
  agree : AgreeOutside t s.files

section Directory

open Build

variable {α : Type} {directory unitName : String} {t : FileTree} {setting : BuildSetting}
  {file configFile copy : String} {index : Nat} {isGenerated : Bool} {us : List BuildUnit}
  {s s' : BuildState} {output : CompilerOutput}

theorem HasDirectory.of_retains (h : HasDirectory directory s)
    (hretains : s.files.Retains s'.files) : HasDirectory directory s' :=
  createDirectories_of_retains h hretains

theorem Untouched.of_retains (h : Untouched directory t s) (hretains : s.files.Retains s'.files)
    (hagree : AgreeOutside s.files s'.files) : Untouched directory t s' :=
  ⟨h.hasDirectory.of_retains hretains, h.agree.trans hagree⟩

theorem hasDirectory_of_keeps {x : Build α} (h : Keeps BuildState.files x) :
    Preserves (HasDirectory directory) x :=
  h.preserves fun _ _ heq hs => hs.of_retains (heq ▸ Retains.refl _)

theorem untouched_of_keeps {x : Build α} (h : Keeps BuildState.files x) :
    Preserves (Untouched directory t) x :=
  h.preserves fun _ _ heq hs => hs.of_retains (heq ▸ Retains.refl _) (heq ▸ AgreeOutside.refl _)

/-- The output of a compilation is saved into the directory. -/
theorem hasDirectory_of_saveOutput {u : Unit}
    (h : (Collect.saveOutput setting unitName output).run.run s = (.ok u, s')) :
    HasDirectory setting.config.configDir s' := by
  obtain ⟨_, t, hcreate, h⟩ := bind_eq_ok_iff.1 h
  obtain ⟨files, hfiles, rfl⟩ := onFiles_eq_ok_iff.1 hcreate
  obtain ⟨_, t, hwrite, h⟩ := bind_eq_ok_iff.1 h
  obtain ⟨files', hfiles', rfl⟩ := onFiles_eq_ok_iff.1 hwrite
  cases h
  exact createDirectories_of_retains hfiles (retains_write hfiles')

theorem hasDirectory_of_compile {c : Compilation}
    (h : (Collect.compile setting file configFile index isGenerated).run.run s = (.ok c, s')) :
    HasDirectory setting.config.configDir s' := by
  obtain ⟨tools, t, -, h⟩ := bind_eq_ok_iff.1 h
  obtain ⟨settings, t, -, h⟩ := bind_eq_ok_iff.1 h
  rw [run_get_bind] at h
  obtain ⟨input, t, -, h⟩ := bind_eq_ok_iff.1 h
  obtain ⟨output, t, -, h⟩ := bind_eq_ok_iff.1 h
  obtain ⟨_, t, hsave, h⟩ := bind_eq_ok_iff.1 h
  refine (hasDirectory_of_keeps ?_).elim (hasDirectory_of_saveOutput hsave) h
  refine (keeps_ofExcept _).bind fun _ => keeps_get.bind fun _ => (keeps_ofExcept _).bind fun _ => ?_
  refine Keeps.bind ?_ fun _ => keeps_pure _
  exact keeps_modify fun _ => rfl

theorem hasDirectory_of_units
    (h : (Collect.units setting file configFile index isGenerated).run.run s = (.ok us, s')) :
    HasDirectory setting.config.configDir s' := by
  obtain ⟨rest, hunits, hrest⟩ :=
    Collect.exists_units_eq_bind setting file configFile index isGenerated
  rw [hunits] at h
  obtain ⟨c, t, hcompile, h⟩ := bind_eq_ok_iff.1 h
  refine Preserves.elim ?_ (hasDirectory_of_compile hcompile) h
  refine Preserves.bind ?_ fun lists => hasDirectory_of_keeps ?_
  · refine (preserves_onFiles fun s files hs hfiles => ?_).bind fun _ => Preserves.foldlM ?_ _ _
    · exact hs.of_retains (retains_createDirectories hfiles)
    · refine fun lists source => Preserves.bind ?_ fun _ => hasDirectory_of_keeps (keeps_pure _)
      exact preserves_onFiles fun s files hs hfiles => hs.of_retains (retains_copy hfiles)
  · exact hrest _ BuildState.files (fun _ _ => rfl) (fun _ _ => rfl) (fun _ _ => rfl) c lists

theorem preserves_instrument (file : String) (us : List BuildUnit) :
    Preserves (Untouched directory t) (Finders.instrument file us) := by
  refine (untouched_of_keeps (Finders.keeps_plan (fun _ _ => rfl) us)).bind fun planned => ?_
  split
  · exact fun s hs => hs
  · intro s hs
    rw [run_get_bind]
    dsimp only
    split
    · exact hs
    · next edits _ =>
      have hagree := Copies.agreeOutside_write s.files edits
      have hretains := Copies.retains_write s.files edits
      split
      · next files heq =>
        rw [heq] at hagree hretains
        exact hs.of_retains hretains hagree
      · next files heq =>
        rw [heq] at hagree hretains
        exact hs.of_retains hretains hagree

/-- What is saved of the compilation of a hidden file is hidden. -/
theorem preserves_saveOutput (hfile : EndsHidden file) :
    Preserves (Untouched setting.config.configDir t)
      (Collect.saveOutput setting (Collect.nameOf file ++ "_" ++ Text.decimal index) output) := by
  obtain ⟨hslash, hhidden⟩ := hfile.nameOf
  have hname : EndsHidden (Path.append setting.config.configDir
      (Collect.nameOf file ++ "_" ++ Text.decimal index ++ ".standard.json")) := by
    refine Path.endsHidden_append ?_ ?_
    · simp [hslash, Path.slash_notMem_decimal]
    · simp only [String.toList_append, List.append_assoc]
      exact hhidden.append _
  refine (preserves_onFiles fun s files hs hfiles => ?_).bind fun _ => ?_
  · obtain rfl := Except.ok.inj (hs.hasDirectory.symm.trans hfiles)
    exact hs
  refine (preserves_onFiles fun s files hs hfiles => ?_).bind fun _ => ?_
  · exact hs.of_retains (retains_write hfiles) (agreeOutside_write hname hfiles)
  · exact untouched_of_keeps (keeps_modify fun _ => by rfl)

theorem preserves_compile (hfile : EndsHidden file) (configFile : String) (index : Nat)
    (isGenerated : Bool) : Preserves (Untouched setting.config.configDir t)
      (Collect.compile setting file configFile index isGenerated) := by
  have hrequest (r : CompilerRequest) : Keeps BuildState.files (request setting r) :=
    keeps_request (fun _ _ => rfl) setting r
  refine (untouched_of_keeps ((hrequest _).bind fun _ => keeps_pure _)).bind fun tools => ?_
  refine (untouched_of_keeps (keeps_tool _)).bind fun settings => ?_
  refine (untouched_of_keeps keeps_get).bind fun _ => ?_
  refine (untouched_of_keeps (keeps_tool _)).bind fun input => ?_
  refine (untouched_of_keeps (hrequest _)).bind fun output => ?_
  refine (preserves_saveOutput hfile).bind fun _ => untouched_of_keeps ?_
  refine (keeps_ofExcept _).bind fun _ => keeps_get.bind fun _ => (keeps_ofExcept _).bind fun _ => ?_
  refine Keeps.bind ?_ fun _ => keeps_pure _
  exact keeps_modify fun _ => rfl

/-- Of a file that falls back, nothing is left but hidden files and the note that it did. -/
theorem untouched_of_fallsBack (h : Finders.FallsBack setting file index us s) (hne : us ≠ [])
    (hdirectory : HasDirectory setting.config.configDir s) : ∃ s',
    (Finders.instrumented setting file index us).run.run s =
      (.ok (Finders.withoutFinders us), s') ∧ core s' = core s ∧
      AgreeOutside s.files s'.files := by
  have hs : Untouched setting.config.configDir s.files s := ⟨hdirectory, .refl _⟩
  obtain ⟨s', hcore, -, hsame⟩ := Finders.instrumented_of_fallsBack h hne
  obtain ⟨u, hrun, hend⟩ := Finders.run_of_fallsBack h hne
  obtain rfl := congrArg Prod.snd (hrun.symm.trans hcore)
  refine ⟨_, hrun, hsame, ?_⟩
  rcases hend with ⟨e, hinstrument⟩ | ⟨finders, copy, u₀, e, hinstrument, hunits, he⟩
  · exact ((preserves_instrument file us).elim hs hinstrument).agree
  · have hcopy : EndsHidden copy := by
      rw [Finders.copy_eq_of_instrument hinstrument]
      exact Path.endsHidden_pathOf _
    have hu₀ := (preserves_instrument file us).elim hs hinstrument
    have hcompile := compile_eq_error_of_units he hunits
    exact ((preserves_compile hcopy file index true).elim hu₀ hcompile).agree

end Directory

namespace Build

open Finders

variable {setting : BuildSetting} {prototypes : SortedMap String (List String)} {file : String}
  {index : Nat} {files : List (String × Nat)} {us : List BuildUnit} {s s' : BuildState}

/-- The units of a file, as they are collected at first. -/
def collected (setting : BuildSetting) (file : String) (index : Nat) : Build (List BuildUnit) := do
  let units ← Collect.units setting file file index false
  ofExcept (checkMethod setting.config file units)
  return units

/-- Adds the units of one file to the model without instrumenting it. -/
def plainFile (setting : BuildSetting) (prototypes : SortedMap String (List String)) (file : String)
    (index : Nat) : Build Unit := do
  addFound prototypes (withoutFinders (← collected setting file index))

/-- Builds all files without instrumenting any, and sets the links. -/
def plainAll (config : Config) (compiler : Compiler) : Build Unit := do
  let finders ← ofExcept (config.functionFinders (← get).files)
  let prototypes ← ofExcept config.prototypes
  let setting : BuildSetting := ⟨config, compiler, finders⟩
  config.builtFiles.forM fun (file, index) => plainFile setting prototypes file index
  Links.applyAll setting

/-- The file falls back whenever it has units to be instrumented. -/
def FileFallsBack (setting : BuildSetting) (file : String) (index : Nat) (s : BuildState) : Prop :=
  ∀ us t, (collected setting file index).run.run s = (.ok us, t) → us ≠ [] →
    Language.ofPath file = .solidity → FallsBack setting file index us t

instance : Decidable (FileFallsBack setting file index s) :=
  decidableForallRun _ fun us t =>
    us ≠ [] → Language.ofPath file = .solidity → FallsBack setting file index us t

/-- Each of the files falls back when it is its turn. -/
def AllFallBack (setting : BuildSetting) (prototypes : SortedMap String (List String)) :
    List (String × Nat) → BuildState → Prop
  | [], _ => True
  | (file, index) :: rest, s => FileFallsBack setting file index s ∧
    ∀ u t, (buildFile setting prototypes file index).run.run s = (.ok u, t) →
      AllFallBack setting prototypes rest t

instance decidableAllFallBack : (files : List (String × Nat)) → (s : BuildState) →
    Decidable (AllFallBack setting prototypes files s)
  | [], _ => isTrue trivial
  | (file, index) :: rest, s =>
    have (t : BuildState) := decidableAllFallBack rest t
    have := decidableForallRun ((buildFile setting prototypes file index).run.run s) fun _ t =>
      AllFallBack setting prototypes rest t
    instDecidableAnd

theorem buildFile_eq_collected (setting : BuildSetting)
    (prototypes : SortedMap String (List String)) (file : String) (index : Nat) :
    buildFile setting prototypes file index = (do
      let units ← collected setting file index
      let found ← match Language.ofPath file with
        | .solidity => instrumented setting file index units
        | .vyper => pure (withoutFinders units)
      addFound prototypes found) := by
  rw [buildFile_eq]
  unfold foundUnits collected
  simp only [bind_assoc, pure_bind]
  refine bind_congr fun units => bind_congr fun _ => ?_
  cases Language.ofPath file with
  | solidity => rfl
  | vyper => rfl

theorem blind_collected (hsteady : setting.compiler.Steady)
    (hconfig : Visible setting.config.configDir) (hfile : Visible file) (index : Nat) :
    Blind (collected setting file index) fun us => ∀ u ∈ us, u.IsVisible := by
  refine (Collect.blind_units hsteady hconfig hfile file index false).bind fun us hus => ?_
  exact (blind_ofExcept fun _ _ => trivial).bind fun _ (_ : True) => blind_pure hus

theorem hasDirectory_of_collected
    (h : (collected setting file index).run.run s = (.ok us, s')) :
    HasDirectory setting.config.configDir s' := by
  obtain ⟨vs, t, hunits, h⟩ := bind_eq_ok_iff.1 h
  obtain ⟨_, t', hcheck, h⟩ := bind_eq_ok_iff.1 h
  obtain ⟨-, rfl⟩ := ofExcept_eq_ok_iff.1 hcheck
  obtain ⟨-, rfl⟩ := pure_eq_ok_iff.1 h
  exact hasDirectory_of_units hunits

/-- A file that falls back is built as if it were not instrumented. -/
theorem match_buildFile (hsteady : setting.compiler.Steady)
    (hconfig : Visible setting.config.configDir) (hfile : Visible file) (hs : Alike s s')
    (hfalls : FileFallsBack setting file index s') :
    Match (plainFile setting prototypes file index) (buildFile setting prototypes file index)
      (fun _ => True) s s' := by
  rw [buildFile_eq_collected]
  refine (blind_collected hsteady hconfig hfile index s s' hs).bind_of_run ?_
  intro us t t' _ hcollected hus ht
  have hadd : ∀ t', Alike t t' → Match (addFound prototypes (withoutFinders us))
      (addFound prototypes (withoutFinders us)) (fun _ => True) t t' := by
    refine blind_addFound (fun f hf => ?_) t
    obtain ⟨u, hu, rfl⟩ := List.mem_map.1 hf
    exact hus u hu
  cases hlang : Language.ofPath file with
  | vyper => exact Match.bind_right rfl (hadd t' ht)
  | solidity =>
    by_cases hne : us = []
    · subst hne
      exact Match.bind_right rfl (hadd t' ht)
    · obtain ⟨t'', hrun, hcore, hagree⟩ := untouched_of_fallsBack
        (hfalls us t' hcollected hne hlang) hne (hasDirectory_of_collected hcollected)
      exact Match.bind_right hrun (hadd t'' (ht.of_core hcore hagree))

theorem match_buildFiles (hsteady : setting.compiler.Steady)
    (hconfig : Visible setting.config.configDir) (hfiles : ∀ p ∈ files, Visible p.1)
    (hs : Alike s s') (hfalls : AllFallBack setting prototypes files s') :
    Match (files.forM fun p => plainFile setting prototypes p.1 p.2)
      (files.forM fun p => buildFile setting prototypes p.1 p.2) (fun _ => True) s s' := by
  induction files generalizing s s' with
  | nil => exact match_pure hs trivial
  | cons p files ih =>
    obtain ⟨hfile, hrest⟩ := hfalls
    obtain ⟨hvisible, hfiles⟩ := List.forall_mem_cons.1 hfiles
    refine (match_buildFile hsteady hconfig hvisible hs hfile).bind_of_run ?_
    exact fun u t t' _ hbuilt _ ht => ih hfiles ht (hrest u t' hbuilt)

end Build

namespace Config

open Build

variable {config : Config} {compiler : Compiler} {files : FileTree}

/-- Neither the configuration nor the compiler speaks of hidden names. -/
structure Apart (config : Config) (compiler : Compiler) (files : FileTree) : Prop where
  current : Visible files.current
  configDir : Visible config.configDir
  files : ∀ file ∈ config.files, Visible file
  compiler : compiler.Steady

/-- All files fall back. -/
def AllFallBack (config : Config) (compiler : Compiler) (files : FileTree) : Prop :=
  ∀ finders, config.functionFinders files = .ok finders →
    ∀ prototypes, config.prototypes = .ok prototypes →
      Build.AllFallBack ⟨config, compiler, finders⟩ prototypes config.builtFiles (.start files)

instance : Decidable (config.AllFallBack compiler files) :=
  decidableForallOk _ fun finders => ∀ prototypes, config.prototypes = .ok prototypes →
    Build.AllFallBack ⟨config, compiler, finders⟩ prototypes config.builtFiles (.start files)

/-- The build that instruments nothing. -/
def plainBuild (config : Config) (compiler : Compiler) (files : FileTree) :
    Except Error Unit × BuildState :=
  (plainAll config compiler).run.run (.start files)

theorem visible_of_mem_builtFiles (h : config.Apart compiler files) {p : String × Nat}
    (hp : p ∈ config.builtFiles) : Visible p.1 :=
  h.files _ (mem_files_of_builtFiles hp)

/-- If all files fall back, the build goes as if nothing were instrumented. -/
theorem match_buildAll (hapart : config.Apart compiler files)
    (hfalls : config.AllFallBack compiler files) :
    Match (plainAll config compiler) (buildAll config compiler) (fun _ => True) (.start files)
      (.start files) := by
  have hstart : Alike (.start files) (.start files) :=
    ⟨rfl, rfl, rfl, rfl, .refl files, hapart.current, nofun⟩
  refine Match.get_bind ?_
  cases hfinders : config.functionFinders (BuildState.start files).files with
  | error e => exact match_throw hstart e
  | ok finders =>
    cases hprototypes : config.prototypes with
    | error e => exact match_throw hstart e
    | ok prototypes =>
      have hall := hfalls finders hfinders prototypes hprototypes
      have hsteady : (BuildSetting.mk config compiler finders).compiler.Steady := hapart.compiler
      have hfiles := match_buildFiles hsteady hapart.configDir
        (fun p hp => visible_of_mem_builtFiles hapart hp) hstart hall
      exact hfiles.bind fun _ t t' _ ht => Links.blind_applyAll hapart.compiler t t' ht

/-- Cleaning up does not touch the model, and the result may change if finders are asked for. -/
theorem build_of_buildAll {r : Except Error Unit} {s : BuildState}
    (h : (buildAll config compiler).run.run (.start files) = (r, s)) :
    (config.build compiler files).2.model = s.model ∧
      (config.assertFinders = false → (config.build compiler files).1 = r) := by
  unfold build
  rw [h]
  cases r with
  | error e =>
    refine ⟨?_, fun _ => rfl⟩
    dsimp only
    split
    · rfl
    · split <;> rfl
  | ok u =>
    dsimp only
    constructor
    · split <;> split <;> rfl
    · intro hassert
      simp [hassert]

/-- Falling back gives the units without finders and leaves everything as it was that later files
depend on. If neither the configuration nor the compiler speaks of hidden names, a build in which
all files fall back comes to the model of the build that instruments nothing, and to its result
unless finders are asked for. -/
theorem fallBack_leavesNoTrace (config : Config) (compiler : Compiler) (files : FileTree) :
    (∀ (setting : BuildSetting) (file : String) (index : Nat) (us : List BuildUnit)
      (s : BuildState), us ≠ [] → Finders.FallsBack setting file index us s →
      ∃ s', (Finders.instrumented setting file index us).run.run s =
          (.ok (us.map fun u => ⟨∅, u⟩), s') ∧ s'.findersFailed = true ∧
        s'.index = s.index ∧ s'.model = s.model ∧ s'.book = s.book ∧
        s'.linkedLibraries = s.linkedLibraries) ∧
    (config.Apart compiler files → config.AllFallBack compiler files →
      (config.build compiler files).2.model = (config.plainBuild compiler files).2.model ∧
        (config.assertFinders = false →
          (config.build compiler files).1 = (config.plainBuild compiler files).1)) := by
  constructor
  · intro setting file index us s hne hfalls
    obtain ⟨s', hrun, hfailed, hcore⟩ := Finders.instrumented_of_fallsBack hfalls hne
    simp only [core, Prod.mk.injEq] at hcore
    exact ⟨s', hrun, hfailed, hcore⟩
  · intro hapart hfalls
    obtain ⟨r, t, t', hplain, hbuilt, halike, -⟩ := match_buildAll hapart hfalls
    obtain ⟨hmodel, hresult⟩ := build_of_buildAll hbuilt
    rw [plainBuild, hplain, hmodel, halike.model]
    exact ⟨rfl, hresult⟩

section Refused

/-! A file whose copy the compiler refuses. -/

/-- A compiler that has its answers from the start is steady if they stay with visible paths. -/
theorem steady_ofOutputs {outputs : List (String × CompilerOutput)}
    (h : ∀ p ∈ outputs, Visible p.1 → ∀ path ∈ p.2.paths, Visible path) :
    (Compiler.ofOutputs outputs).Steady where
  answer t t' earlier earlier' r _ _ := by
    cases r with
    | version executable => rfl
    | output executable input allowed => rfl
    | assembly executable path arguments allowed => rfl
  output t earlier executable input allowed o hinput ho := by
    unfold Compiler.ofOutputs at ho
    dsimp only at ho
    split at ho
    · next output hfound =>
      cases ho
      obtain ⟨file, hfile, hlookup⟩ := List.exists_of_findSome?_eq_some hfound
      obtain ⟨front, back, rfl, -⟩ := List.lookup_eq_some_iff.1 hlookup
      exact h _ (List.mem_append_right _ List.mem_cons_self) (hinput file hfile)
    · cases ho

def refusedCompiler : Compiler :=
  let message : Diagnostic := ⟨"general", none, "", "stack too deep", "error", "CompilerError"⟩
  .ofOutputs [
    ("/p/C.sol", .ofFiles [("/p/C.sol", [.ofContract 2 "C" []], [("C", .ofCode "6080" none)])]),
    ("/p/autoFinder_C.sol", ⟨none, none, some [message]⟩)]

def refusedConfig : Config := { files := ["/p/C.sol"], configDir := "/p/out" }

def refusedFiles : FileTree := .ofEntries "/p" [("/p/C.sol", .file [])]

theorem fallBack_refusedCopy :
    (∃ us t s', (collected ⟨refusedConfig, refusedCompiler, ∅⟩ "/p/C.sol" 0).run.run
          (.start refusedFiles) = (.ok us, t) ∧ us ≠ [] ∧
        (Finders.instrumented ⟨refusedConfig, refusedCompiler, ∅⟩ "/p/C.sol" 0 us).run.run t =
          (.ok (us.map fun u => ⟨∅, u⟩), s') ∧ s'.findersFailed = true ∧ s'.book = t.book) ∧
      refusedConfig.Apart refusedCompiler refusedFiles ∧
      refusedConfig.AllFallBack refusedCompiler refusedFiles ∧
      (refusedConfig.build refusedCompiler refusedFiles).2.model.values.map
        BuildUnit.primaryContract = ["C"] := by
  have hrun : refusedConfig.AllFallBack refusedCompiler refusedFiles ∧
      ((collected ⟨refusedConfig, refusedCompiler, ∅⟩ "/p/C.sol" 0).run.run
        (.start refusedFiles)).1.toOption.map List.isEmpty = some false ∧
      (refusedConfig.plainBuild refusedCompiler refusedFiles).2.model.values.map
        BuildUnit.primaryContract = ["C"] := by decide +kernel
  obtain ⟨hfalls, hcollected, hplain⟩ := hrun
  obtain ⟨us, t, hus, hempty⟩ := exists_of_map_eq_some hcollected
  have hne : us ≠ [] := by simpa using hempty
  have hapart : refusedConfig.Apart refusedCompiler refusedFiles := by
    constructor
    · decide
    · decide
    · decide
    · exact steady_ofOutputs (by decide +kernel)
  obtain ⟨hone, hall⟩ :=
    fallBack_leavesNoTrace refusedConfig refusedCompiler refusedFiles
  have hfile := (hfalls ∅ rfl ∅ rfl).1 us t hus hne (by decide +kernel)
  obtain ⟨s', hinstrumented, hfailed, -, -, hbook, -⟩ := hone _ _ _ _ _ hne hfile
  refine ⟨⟨us, t, s', hus, hne, hinstrumented, hfailed, hbook⟩, hapart, hfalls, ?_⟩
  rw [(hall hapart hfalls).1]
  exact hplain

end Refused

section Overwritten

/-! A file that is imported by one beside which the user has a file with the name of its copy. The
copy of the importer is written over that file and is taken away again, because the copy of the
other one cannot be written. -/

def overwrittenCompiler : Compiler :=
  let code : CompiledContract := .ofCode "6080" none
  .ofOutputs [
    ("/p/C.sol", .ofFiles [
      ("/p/C.sol", [.ofImport 2 "/p/B.vy", .ofContract 3 "C" []], [("C", code)]),
      ("/p/B.vy", [.ofImport 12 "/p/C.sol"], [])]),
    ("/p/autoFinder_B.vy", .ofFiles [("/p/autoFinder_B.vy", [], [("autoFinder_B", code)])])]

def overwrittenConfig : Config :=
  { files := ["/p/C.sol", "/p/autoFinder_B.vy"], configDir := "/p/out" }

/-- The sources consist of the letter that begins an import. -/
def overwrittenFiles : FileTree :=
  .ofEntries "/p" [("/p/C.sol", .file [0x69]), ("/p/B.vy", .file [0x69]),
    ("/p/autoFinder_B.vy", .file []), ("/p/autoFinder_C.sol", .directory)]

/-- Only the build that instruments nothing still finds the user's file. -/
theorem not_fallBack_overwritten :
    overwrittenConfig.AllFallBack overwrittenCompiler overwrittenFiles ∧
      (overwrittenConfig.build overwrittenCompiler overwrittenFiles).2.findersFailed = true ∧
      (overwrittenConfig.build overwrittenCompiler overwrittenFiles).2.model ≠
        (overwrittenConfig.plainBuild overwrittenCompiler overwrittenFiles).2.model := by
  have hrun : overwrittenConfig.AllFallBack overwrittenCompiler overwrittenFiles ∧
      (overwrittenConfig.build overwrittenCompiler overwrittenFiles).2.findersFailed = true ∧
      (overwrittenConfig.build overwrittenCompiler overwrittenFiles).2.model.values.map
        BuildUnit.primaryContract = ["C"] ∧
      (overwrittenConfig.plainBuild overwrittenCompiler overwrittenFiles).2.model.values.map
        BuildUnit.primaryContract = ["C", "autoFinder_B"] := by decide +kernel
  obtain ⟨hfalls, hfailed, hbuilt, hplain⟩ := hrun
  refine ⟨hfalls, hfailed, fun hmodel => ?_⟩
  rw [hmodel, hplain] at hbuilt
  cases hbuilt

end Overwritten

end Config

end ContractModel
