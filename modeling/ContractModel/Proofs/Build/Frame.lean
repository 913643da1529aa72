import ContractModel.Proofs.Build.CleanUp
import ContractModel.Proofs.Instrument.HiddenPaths

/-! # What a build leaves alone

A build writes into its configuration directory, and it writes instrumented copies beside the
sources. Every other file is there in the end as it was before, whatever came of the build. But a
file that has the name of a copy is lost when that copy is written and taken away.
-/

namespace ContractModel

open Run FileTree

namespace Config

variable {config : Config} {compiler : Compiler} {files t : FileTree} {s s' : BuildState}
  {path other name : String} {place : List (List Char)} {content : Bytes}
  (hnamed : ∀ file ∈ config.files, (Path.fileName? file).isSome)

/-- A path into the configuration directory, or to the place of the copy of a file that was there
before or that has such a path itself. -/
inductive Reserves (config : Config) (files : FileTree) : String → Prop
  | inside {path : String}
    (h : Path.resolve files.home config.configDir <+: Path.resolve files.home path) :
    Reserves config files path
  | copyOfFile {path source : String} {content : Bytes}
    (h : Path.resolve files.home path = Path.resolve files.home (Copies.pathOf source))
    (hsource : files.entries.get? (Path.normalize files.current source) = some (.file content)) :
    Reserves config files path
  | copyOfReserved {path source : String}
    (h : Path.resolve files.home path = Path.resolve files.home (Copies.pathOf source))
    (hsource : Reserves config files source) : Reserves config files path

theorem Reserves.of_resolve_eq (h : config.Reserves files path)
    (heq : Path.resolve files.home other = Path.resolve files.home path) :
    config.Reserves files other := by
  cases h with
  | inside h => exact .inside (heq ▸ h)
  | copyOfFile h hsource => exact .copyOfFile (heq.trans h) hsource
  | copyOfReserved h hsource => exact .copyOfReserved (heq.trans h) hsource

/-- Outside of the configuration directory, only names that begin as those of copies are reserved. -/
theorem not_reserves_of_name
    (houtside : ¬ Path.resolve files.home config.configDir <+: Path.resolve files.home path)
    (hname : ∀ name ∈ (Path.resolve files.home path).getLast?,
      ¬ Copies.namePrefix.toList <+: name) : ¬ config.Reserves files path := by
  have hcopy {source : String}
      (h : Path.resolve files.home path = Path.resolve files.home (Copies.pathOf source)) :
      False := by
    obtain ⟨above, name, hplace, -⟩ := Copies.exists_resolve_pathOf source files.home
    rw [h, hplace, List.getLast?_concat] at hname
    exact hname _ rfl (List.prefix_append _ _)
  intro h
  cases h with
  | inside h => exact houtside h
  | copyOfFile h _ => exact hcopy h
  | copyOfReserved h _ => exact hcopy h

section Written

/-! Whatever a build writes is in its configuration directory, but for the copies. -/

/-- A name with an underscore stands for a step down. -/
theorem plain_of_underscore {name : List Char} (h : '/' ∉ name) (hmem : '_' ∈ name) :
    Path.Plain name where
  slash := h
  nonempty := List.ne_nil_of_mem hmem
  dot := by
    rintro rfl
    simp at hmem
  dots := by
    rintro rfl
    simp at hmem

include hnamed in
theorem slash_notMem_unitName (h : config.IsUnitName name) : '/' ∉ name.toList := by
  obtain ⟨file, index, hfile, rfl⟩ := h
  have hname : '/' ∉ (Collect.nameOf file).toList := by
    rcases hfile with hfile | ⟨source, rfl⟩
    · obtain ⟨last, hlast⟩ := Option.isSome_iff_exists.1 (hnamed file hfile)
      rw [Collect.nameOf, hlast]
      exact Path.slash_notMem_of_fileName? hlast
    · exact (Path.endsHidden_pathOf source).nameOf.1
  simpa [hname] using Path.slash_notMem_decimal index

theorem underscore_mem_unitName (h : config.IsUnitName name) : '_' ∈ name.toList := by
  obtain ⟨file, index, -, rfl⟩ := h
  simp

include hnamed in
theorem reserves_output (h : config.IsOutput path) : config.Reserves files path := by
  obtain ⟨name, hname, rfl⟩ := h
  have hplain : Path.Plain (name ++ ".standard.json").toList := by
    rw [String.toList_append]
    refine plain_of_underscore ?_ (List.mem_append_left _ (underscore_mem_unitName hname))
    simpa using slash_notMem_unitName hnamed hname
  refine .inside ?_
  rw [Path.resolve_append hplain]
  exact List.prefix_append _ _

include hnamed in
theorem underConfigDir_of_isReportDirectory (h : config.IsReportDirectory path)
    (current : List (List Char)) :
    Path.resolve current config.configDir <+: Path.resolve current path := by
  cases h with
  | root => exact List.prefix_rfl
  | unit hname =>
    have hplain := plain_of_underscore (slash_notMem_unitName hnamed hname)
      (underscore_mem_unitName hname)
    rw [Path.resolve_append hplain]
    exact List.prefix_append _ _

/-- What is copied under its own path with a slash has a name, as the copy has. -/
theorem exists_fileName?_of_names {directory front source : String}
    (h : t.Names (Path.append directory (front ++ source)) place) (hslash : '/' ∈ source.toList) :
    ∃ last, Path.fileName? source = some last := by
  obtain ⟨cs, ds, hsource⟩ := List.append_of_mem hslash
  obtain ⟨parts, last, hds⟩ := (Text.splitOnChar '/' ds).eq_nil_or_concat.resolve_left
    (Text.splitOnChar_ne_nil '/' ds)
  obtain ⟨above, -, hpath⟩ := Path.exists_splitOnChar_pathAppend directory (front ++ source)
  obtain ⟨segments, name, hsegments, hplain, -⟩ := h.exists_segments
  rw [String.toList_append, hsource, ← List.append_assoc, Text.splitOnChar_append_separator, hds,
    List.concat_eq_append, hsegments, ← List.append_assoc, ← List.append_assoc] at hpath
  obtain rfl : name = last := List.singleton_inj.1 (List.append_inj' hpath rfl).2
  have hend : Text.splitOnChar '/' source.toList = Text.splitOnChar '/' cs ++ parts ++ [name] := by
    rw [hsource, Text.splitOnChar_append_separator, hds, List.concat_eq_append, List.append_assoc]
  exact ⟨_, Path.fileName?_of_segments hend hplain⟩

theorem slash_notMem_nameOf {directory front source : String}
    (h : t.Names (Path.append directory (front ++ Collect.nameOf source)) place) :
    '/' ∉ (Collect.nameOf source).toList := by
  cases hname : Path.fileName? source with
  | some last =>
    rw [Collect.nameOf, hname]
    exact Path.slash_notMem_of_fileName? hname
  | none =>
    have hsource : Collect.nameOf source = source := by rw [Collect.nameOf, hname, Option.getD_none]
    rw [hsource] at h ⊢
    intro hslash
    obtain ⟨last, hlast⟩ := exists_fileName?_of_names h hslash
    rw [hlast] at hname
    cases hname

include hnamed in
theorem reserves_reportCopy (h : config.IsReportCopy path) (hnames : t.Names path place) :
    config.Reserves files path := by
  obtain ⟨directory, id, source, hdirectory, rfl⟩ := h
  have hslash := slash_notMem_nameOf hnames
  have hplain : Path.Plain (Text.decimal id ++ "_" ++ Collect.nameOf source).toList := by
    refine plain_of_underscore ?_ (by simp)
    simpa [hslash] using Path.slash_notMem_decimal id
  refine .inside ?_
  rw [Path.resolve_append hplain]
  exact (underConfigDir_of_isReportDirectory hnamed hdirectory _).trans (List.prefix_append _ _)

end Written

section Run

/-- The normal form of no reserved path. -/
def Spares (config : Config) (files : FileTree) (k : String) : Prop :=
  ∀ path, config.Reserves files path → k ≠ Path.normalize files.current path

theorem spares_normalize (h : ¬ config.Reserves files path) :
    config.Spares files (Path.normalize files.current path) :=
  fun _ hother heq => h (hother.of_resolve_eq (resolve_eq_of_normalize_eq heq))

/-- The files that are not reserved are as they were, and all that is recorded is reserved. -/
structure LeftAlone (config : Config) (files : FileTree) (s : BuildState) : Prop where
  retains : files.Retains s.files
  spared : ∀ k content, config.Spares files k →
    (s.files.entries.get? k = some (.file content) ↔ files.entries.get? k = some (.file content))
  recorded : ∀ path ∈ s.recorded, config.Reserves files path

theorem leftAlone_start (config : Config) (files : FileTree) :
    LeftAlone config files (.start files) where
  retains := .refl files
  spared _ _ _ := .rfl
  recorded := nofun

/-- A step may record reserved paths and change what is under their normal forms. -/
theorem LeftAlone.step (h : LeftAlone config files s) (hretains : s.files.Retains s'.files)
    (hspared : ∀ k content, config.Spares files k →
      (s'.files.entries.get? k = some (.file content) ↔
        s.files.entries.get? k = some (.file content)))
    (hrecorded : ∀ path ∈ s'.recorded, path ∈ s.recorded ∨ config.Reserves files path) :
    LeftAlone config files s' where
  retains := h.retains.trans hretains
  spared k content hk := (hspared k content hk).trans (h.spared k content hk)
  recorded path hpath := (hrecorded path hpath).elim (h.recorded path) id

/-- A source that can be read was there before or is reserved, so its copy is reserved. -/
theorem LeftAlone.reserves_pathOf (h : LeftAlone config files s) {source : String}
    (hread : s.files.read source = .ok content) : config.Reserves files (Copies.pathOf source) := by
  have hentry := (read_eq_ok_iff.1 hread).2.2
  rw [h.retains.current] at hentry
  by_cases hsource : config.Reserves files source
  · exact .copyOfReserved rfl hsource
  · exact .copyOfFile rfl ((h.spared _ content (spares_normalize hsource)).1 hentry)

theorem LeftAlone.write (h : LeftAlone config files s) (edits : SourceEdits) :
    LeftAlone config files { s with files := (Copies.write s.files edits).2 } := by
  refine h.step (Copies.retains_write s.files edits) (fun k content hk => ?_) fun path => .inl
  have hframe : (Copies.write s.files edits).2.entries.get? k = s.files.entries.get? k := by
    refine Copies.get?_writeOn_of_ne fun source _ ⟨read, hread⟩ => ?_
    rw [h.retains.current]
    exact hk _ (h.reserves_pathOf hread)
  exact hframe ▸ .rfl

include hnamed in
theorem leftAlone_fileInvariant : config.FileInvariant (LeftAlone config files) := by
  constructor
  case disk =>
    intro s s' hdisk hs
    obtain ⟨hfiles, hrecorded⟩ := BuildState.eq_of_disk_eq hdisk
    refine hs.step (hfiles ▸ .refl _) (fun k content _ => by rw [hfiles]) fun path hpath => ?_
    exact .inl (hrecorded ▸ hpath)
  case directories =>
    intro s directory t hs ht
    refine hs.step (retains_createDirectories ht) (fun k content _ => ?_) fun path => .inl
    exact sameFiles_createDirectories ht k content
  case output =>
    intro s path content t hs hpath ht
    have hreserves : config.Reserves files path := reserves_output hnamed hpath
    refine hs.step (retains_write ht) (fun k kept hk => ?_) fun other hrecorded => ?_
    · have hne := hk path hreserves
      rw [← hs.retains.current] at hne
      exact get?_write_of_ne ht hne ▸ .rfl
    · rcases BuildState.mem_recorded_output.1 hrecorded with hrecorded | rfl
      · exact .inl hrecorded
      · exact .inr hreserves
  case report =>
    intro s source path t hs hpath ht
    obtain ⟨place, _, hplace, -⟩ := copy_eq_ok ht
    have hreserves : config.Reserves files path :=
      reserves_reportCopy hnamed hpath (writable_eq_ok_iff.1 hplace).1
    refine hs.step (retains_copy ht) (fun k kept hk => ?_) fun other => .inl
    have hne := hk path hreserves
    rw [← hs.retains.current] at hne
    exact get?_copy_of_ne ht hne ▸ .rfl
  case copies =>
    intro s edits paths t hs ht
    have hwritten := hs.write edits
    rw [ht] at hwritten
    refine hwritten.step (.refl t) (fun k content _ => .rfl) fun path hpath => ?_
    refine (BuildState.mem_recorded_copies.1 hpath).imp_right fun hpath => ?_
    obtain ⟨source, content, rfl, hread⟩ := Copies.exists_read_of_writeOn ht hpath
    exact hs.reserves_pathOf hread
  case rolledBack =>
    intro s edits e t hs ht
    have hwritten := hs.write edits
    rwa [ht] at hwritten

end Run

/-- A file that is not reserved is read as before when a build has ended, however it ended. -/
theorem build_leavesAlone (config : Config) (compiler : Compiler) (files : FileTree)
    (hnamed : ∀ file ∈ config.files, (Path.fileName? file).isSome)
    (hpath : ¬ config.Reserves files path) (hread : files.read path = .ok content) :
    (config.build compiler files).2.files.read path = .ok content := by
  have hs : LeftAlone config files (config.beforeCleanUp compiler files) :=
    Build.preserves_buildAll (leftAlone_fileInvariant hnamed) compiler _
      (leftAlone_start config files)
  have hspares := spares_normalize hpath
  have hkept := (hs.spared _ content hspares).2 (read_eq_ok_iff.1 hread).2.2
  rcases files_build config compiler files with ⟨-, hfinal⟩ | hfinal
  · rw [hfinal]
    exact read_of_retains hs.retains hread hkept
  · rw [hfinal]
    refine read_of_retains (hs.retains.trans (Copies.retains_removeAll _ _)) hread ?_
    rw [Copies.get?_removeAll_of_ne fun other hother => ?_]
    · exact hkept
    · rw [hs.retains.current]
      exact hspares other (hs.recorded other hother)

section Namesake

/-! A user's file that has the name of the copy of a configured file. -/

def namesakeConfig : Config := { files := ["/p/A.sol"], configDir := "/p/out" }

def namesakeCompiler : Compiler :=
  .ofOutputs (["/p/A.sol", "/p/autoFinder_A.sol"].map fun file =>
    (file, .ofFiles [(file, [.ofContract 2 "A" []], [("A", .ofCode "6080" none)])]))

def namesakeFiles : FileTree :=
  .ofEntries "/p" [("/p/A.sol", .file [0x61]), ("/p/autoFinder_A.sol", .file [0x62])]

theorem build_leavesAlone_source :
    (∀ file ∈ namesakeConfig.files, (Path.fileName? file).isSome) ∧
      ¬ namesakeConfig.Reserves namesakeFiles "/p/A.sol" ∧
      namesakeFiles.read "/p/A.sol" = .ok [0x61] ∧
      (namesakeConfig.build namesakeCompiler namesakeFiles).2.files.read "/p/A.sol" =
        .ok [0x61] := by
  have hnamed : ∀ file ∈ namesakeConfig.files, (Path.fileName? file).isSome := by decide +kernel
  have hpath : ¬ namesakeConfig.Reserves namesakeFiles "/p/A.sol" :=
    not_reserves_of_name (by decide +kernel) (by decide +kernel)
  have hread : namesakeFiles.read "/p/A.sol" = .ok [0x61] := by decide +kernel
  exact ⟨hnamed, hpath, hread, build_leavesAlone _ _ _ hnamed hpath hread⟩

/-- The build succeeds, and the file is gone. -/
theorem not_leavesAlone_namesake :
    namesakeConfig.debug = false ∧
      ¬ Path.resolve namesakeFiles.home namesakeConfig.configDir <+:
        Path.resolve namesakeFiles.home "/p/autoFinder_A.sol" ∧
      namesakeFiles.read "/p/autoFinder_A.sol" = .ok [0x62] ∧
      (namesakeConfig.build namesakeCompiler namesakeFiles).1 = .ok () ∧
      (namesakeConfig.build namesakeCompiler namesakeFiles).2.files.read "/p/autoFinder_A.sol" =
        .error .missing := by
  decide +kernel

end Namesake

end Config

end ContractModel
