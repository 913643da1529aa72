import ContractModel.Proofs.Build.Links

/-! # What a build does to the files

A build makes directories, saves the compiler's outputs, copies sources for the report, and writes
instrumented copies, which it may have to take back. What each of these keeps, and what depends on
nothing else in the state, holds at the end of every run, however it ends.
-/

namespace ContractModel

open Run

/-- The files, and which of them the build is to remove. -/
def BuildState.disk (s : BuildState) : FileTree × List String × List String :=
  (s.files, s.copies, s.outputs)

namespace Config

variable {config : Config} {name path : String}

/-- The name of the units of a configured file or of an instrumented copy. -/
def IsUnitName (config : Config) (name : String) : Prop :=
  ∃ file index, (file ∈ config.files ∨ ∃ source, file = Copies.pathOf source) ∧
    name = Collect.nameOf file ++ "_" ++ Text.decimal index

/-- A path under which an output of the compiler is saved. -/
def IsOutput (config : Config) (path : String) : Prop :=
  ∃ name, config.IsUnitName name ∧ path = Path.append config.configDir (name ++ ".standard.json")

/-- A directory for the copies of the report. -/
inductive IsReportDirectory (config : Config) : String → Prop
  | root : IsReportDirectory config config.configDir
  | unit {name : String} (h : config.IsUnitName name) :
    IsReportDirectory config (Path.append config.configDir name)

/-- A path under which a source is copied for the report. -/
def IsReportCopy (config : Config) (path : String) : Prop :=
  ∃ directory id source, config.IsReportDirectory directory ∧
    path = Path.append directory (Text.decimal id ++ "_" ++ Collect.nameOf source)

/-- A property of states that every effect of a build on the files keeps. -/
structure FileInvariant (config : Config) (I : BuildState → Prop) : Prop where
  disk : ∀ s t : BuildState, s.disk = t.disk → I s → I t
  directories : ∀ s directory files, I s → s.files.createDirectories directory = .ok files →
    I { s with files := files }
  output : ∀ s path content files, I s → config.IsOutput path →
    s.files.write path content = .ok files →
    I { s with files := files, outputs := s.outputs ++ [path] }
  report : ∀ s source path files, I s → config.IsReportCopy path →
    s.files.copy source path = .ok files → I { s with files := files }
  copies : ∀ s edits paths files, I s → Copies.write s.files edits = (.ok paths, files) →
    I { s with files := files, copies := s.copies ++ paths }
  rolledBack : ∀ s edits e files, I s → Copies.write s.files edits = (.error e, files) →
    I { s with files := files }

end Config

namespace Build

variable {α : Type} {setting : BuildSetting} {I : BuildState → Prop} {file configFile name : String}
  {index : Nat} {isGenerated : Bool} {us : List BuildUnit} {s s' : BuildState}
  {output : CompilerOutput} {c : Compilation}

theorem keepsDisk_preserves (h : setting.config.FileInvariant I) {x : Build α}
    (hx : Keeps BuildState.disk x) : Preserves I x :=
  hx.preserves h.disk

theorem preserves_saveOutput (h : setting.config.FileInvariant I)
    (hname : setting.config.IsUnitName name) (output : CompilerOutput) :
    Preserves I (Collect.saveOutput setting name output) := by
  refine (preserves_onFiles fun s files hs hfiles => h.directories s _ files hs hfiles).bind ?_
  exact fun _ => preserves_onFiles_bind fun s files hs hfiles =>
    h.output s _ _ files hs ⟨name, hname, rfl⟩ hfiles

theorem preserves_copySources (h : setting.config.FileInvariant I)
    (hname : setting.config.IsUnitName name) (lang : Language) (output : CompilerOutput) :
    Preserves I (Collect.copySources setting name lang output) := by
  unfold Collect.copySources
  extract_lets configDir directory
  have hdirectory : setting.config.IsReportDirectory directory := by
    cases lang with
    | solidity => exact .unit hname
    | vyper => exact .root
  refine (preserves_onFiles fun s files hs hfiles => h.directories s _ files hs hfiles).bind ?_
  refine fun _ => Preserves.foldlM (fun lists source => ?_) _ _
  refine (preserves_onFiles fun s files hs hfiles => ?_).bind fun _ => fun s hs => hs
  exact h.report s _ _ files hs ⟨directory, _, _, hdirectory, rfl⟩ hfiles

theorem preserves_compile (h : setting.config.FileInvariant I)
    (hname : setting.config.IsUnitName (Collect.nameOf file ++ "_" ++ Text.decimal index)) :
    Preserves I (Collect.compile setting file configFile index isGenerated) := by
  have hrequest (r : CompilerRequest) : Preserves I (request setting r) :=
    keepsDisk_preserves h (keeps_request (fun _ _ => rfl) setting r)
  refine ((hrequest _).bind fun _ => keepsDisk_preserves h (keeps_pure _)).bind fun tools => ?_
  refine (keepsDisk_preserves h (keeps_tool _)).bind fun settings => ?_
  refine (keepsDisk_preserves h keeps_get).bind fun _ => ?_
  refine (keepsDisk_preserves h (keeps_tool _)).bind fun input => (hrequest _).bind fun output => ?_
  refine (preserves_saveOutput h hname output).bind fun _ => keepsDisk_preserves h ?_
  refine (keeps_ofExcept _).bind fun _ => keeps_get.bind fun _ => (keeps_ofExcept _).bind fun _ => ?_
  exact Keeps.bind (keeps_modify fun _ => rfl) fun _ => keeps_pure _

theorem preserves_units (h : setting.config.FileInvariant I)
    (hfile : file ∈ setting.config.files ∨ ∃ source, file = Copies.pathOf source) :
    Preserves I (Collect.units setting file configFile index isGenerated) := by
  have hname : setting.config.IsUnitName (Collect.nameOf file ++ "_" ++ Text.decimal index) :=
    ⟨file, index, hfile, rfl⟩
  obtain ⟨rest, hunits, hrest⟩ :=
    Collect.exists_units_eq_bind setting file configFile index isGenerated
  rw [hunits]
  refine (preserves_compile h hname).bind_of_run fun s c t hcompile => ?_
  obtain ⟨-, hunitName, -⟩ := Collect.compile_eq_ok hcompile
  refine (preserves_copySources h (hunitName ▸ hname) _ _).bind fun lists => ?_
  exact keepsDisk_preserves h (hrest _ _ (fun _ _ => rfl) (fun _ _ => rfl) (fun _ _ => rfl) c lists)

theorem preserves_instrument (h : setting.config.FileInvariant I) (file : String)
    (us : List BuildUnit) : Preserves I (Finders.instrument file us) := by
  refine (keepsDisk_preserves h (Finders.keeps_plan (fun _ _ => rfl) us)).bind fun planned => ?_
  split
  · exact fun s hs => hs
  · intro s hs
    rw [run_get_bind]
    dsimp only
    split
    · exact hs
    · next edits _ =>
      split
      · next e files heq => exact h.rolledBack s edits e files hs heq
      · next paths files heq => exact h.copies s edits paths files hs heq

theorem preserves_instrumented (h : setting.config.FileInvariant I) (file : String) (index : Nat)
    (us : List BuildUnit) : Preserves I (Finders.instrumented setting file index us) := by
  have hfallBack : Preserves I (Finders.fallBack us) := fun s hs => h.disk s _ rfl hs
  unfold Finders.instrumented
  split
  · exact fun s hs => hs
  · refine (preserves_instrument h file us).bind_of_run fun s planned t hplanned => ?_
    split
    · exact hfallBack
    · next finders copy =>
      refine Preserves.tryCatch ?_ fun e => ?_
      · have hcopy : ∃ source, copy = Copies.pathOf source :=
          ⟨_, Finders.copy_eq_of_instrument hplanned⟩
        exact (preserves_units h (.inr hcopy)).bind fun _ s hs => hs
      · split
        · exact hfallBack
        · exact fun s hs => hs

theorem keeps_addFound (prototypes : SortedMap String (List String)) (found : List FoundUnit) :
    Keeps BuildState.disk (addFound prototypes found) := by
  have honModel (change : BuildModel → BuildModel) : Keeps BuildState.disk (onModel change) :=
    keeps_modify fun _ => rfl
  refine Keeps.forM (fun f => Keeps.bind ?_ fun _ => ?_) found
  · refine Keeps.forM (fun address => ?_) _
    exact (keeps_ofExcept _).bind fun c => honModel _
  · exact (keeps_ofExcept _).bind fun u => honModel _

theorem preserves_buildFile (h : setting.config.FileInvariant I)
    (hfile : file ∈ setting.config.files) (prototypes : SortedMap String (List String))
    (index : Nat) : Preserves I (buildFile setting prototypes file index) := by
  rw [buildFile_eq]
  refine Preserves.bind ?_ fun found => keepsDisk_preserves h (keeps_addFound prototypes found)
  refine (preserves_units h (.inl hfile)).bind fun us => ?_
  refine (keepsDisk_preserves h (keeps_ofExcept _)).bind fun _ => ?_
  split
  · exact preserves_instrumented h file index us
  · exact fun s hs => hs

/-- What every effect on the files keeps holds at the end of a build. -/
theorem preserves_buildAll {config : Config} (h : config.FileInvariant I) (compiler : Compiler) :
    Preserves I (buildAll config compiler) := by
  have hkeeps {α : Type} {x : Build α} (hx : Keeps BuildState.disk x) : Preserves I x :=
    hx.preserves h.disk
  refine (hkeeps keeps_get).bind fun _ => (hkeeps (keeps_ofExcept _)).bind fun finders => ?_
  refine (hkeeps (keeps_ofExcept _)).bind fun prototypes => Preserves.bind ?_ fun _ => ?_
  · refine Preserves.forM fun p hp => ?_
    exact preserves_buildFile h (Config.mem_files_of_builtFiles hp) prototypes p.2
  · exact hkeeps (Links.keeps_applyAll ⟨fun _ _ _ _ => rfl, fun _ _ => rfl⟩)

end Build

end ContractModel
