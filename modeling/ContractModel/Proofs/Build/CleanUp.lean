import ContractModel.Proofs.Build.FileEffects

/-! # What is left of a build

Every instrumented copy and every output of the compiler that a build writes is recorded before
anything else can go wrong, or taken back at once. So cleaning up leaves none of them.
-/

namespace ContractModel

open Run FileTree

/-- The files that a build is to remove. -/
def BuildState.recorded (s : BuildState) : List String := s.copies ++ s.outputs

namespace BuildState

variable {s s' : BuildState} {t : FileTree} {path other : String} {paths : List String}

theorem eq_of_disk_eq (h : s.disk = s'.disk) : s.files = s'.files ∧ s.recorded = s'.recorded := by
  simp only [disk, Prod.mk.injEq] at h
  obtain ⟨hfiles, hcopies, houtputs⟩ := h
  rw [recorded, recorded, hcopies, houtputs]
  exact ⟨hfiles, rfl⟩

theorem mem_recorded_output :
    other ∈ { s with files := t, outputs := s.outputs ++ [path] }.recorded ↔
      other ∈ s.recorded ∨ other = path := by
  simp only [recorded, List.mem_append, List.mem_singleton, or_assoc]

theorem mem_recorded_copies :
    other ∈ { s with files := t, copies := s.copies ++ paths }.recorded ↔
      other ∈ s.recorded ∨ other ∈ paths := by
  simp only [recorded, List.mem_append]
  exact or_right_comm

end BuildState

namespace Config

variable {config : Config} {compiler : Compiler} {files t : FileTree} {s s' : BuildState}
  {path k : String} {content : Bytes}

/-- What may be left of a build: a file that was there before, as it is, and a copy for the
report. -/
def MayStay (config : Config) (files : FileTree) (k : String) (content : Bytes) : Prop :=
  files.entries.get? k = some (.file content) ∨
    ∃ path, config.IsReportCopy path ∧ k = Path.normalize files.current path

/-- Every file that may not stay is recorded, under a path that names it. -/
structure Recorded (config : Config) (files : FileTree) (s : BuildState) : Prop where
  current : s.files.current = files.current
  names : ∀ path ∈ s.recorded, ∃ place,
    s.files.Names path place ∧ ¬ place.isPrefixOf s.files.home
  accounted : ∀ k content, s.files.entries.get? k = some (.file content) →
    config.MayStay files k content ∨ ∃ path ∈ s.recorded, k = Path.normalize files.current path

theorem recorded_start (config : Config) (files : FileTree) :
    Recorded config files (.start files) where
  current := rfl
  names := nofun
  accounted _ _ h := .inl (.inl h)

/-- A step may add recorded paths, and files that are recorded or may stay. -/
theorem Recorded.step (h : Recorded config files s) (hretains : s.files.Retains s'.files)
    (more : List String) (hrecorded : ∀ path, path ∈ s'.recorded ↔ path ∈ s.recorded ∨ path ∈ more)
    (hmore : ∀ path ∈ more, ∃ place,
      s'.files.Names path place ∧ ¬ place.isPrefixOf s'.files.home)
    (hfiles : ∀ k content, s'.files.entries.get? k = some (.file content) →
      s.files.entries.get? k = some (.file content) ∨ config.MayStay files k content ∨
        ∃ path ∈ more, k = Path.normalize files.current path) :
    Recorded config files s' := by
  constructor
  case current =>
    exact hretains.current.trans h.current
  case names =>
    intro path hpath
    rcases (hrecorded path).1 hpath with hpath | hpath
    · obtain ⟨place, hnames, hplace⟩ := h.names path hpath
      exact ⟨place, hnames.of_retains hretains, hretains.home_eq ▸ hplace⟩
    · exact hmore path hpath
  case accounted =>
    intro k content hk
    rcases hfiles k content hk with hk | hstay | ⟨path, hpath, heq⟩
    · refine (h.accounted k content hk).imp_right ?_
      rintro ⟨path, hpath, heq⟩
      exact ⟨path, (hrecorded path).2 (.inl hpath), heq⟩
    · exact .inl hstay
    · exact .inr ⟨path, (hrecorded path).2 (.inr hpath), heq⟩

theorem Recorded.of_files (h : Recorded config files s) (hretains : s.files.Retains t)
    (hfiles : ∀ k content, t.entries.get? k = some (.file content) →
      s.files.entries.get? k = some (.file content) ∨ config.MayStay files k content) :
    Recorded config files { s with files := t } := by
  refine h.step hretains [] (fun path => (or_iff_left List.not_mem_nil).symm) nofun ?_
  exact fun k content hk => (hfiles k content hk).imp_right .inl

theorem recorded_fileInvariant (config : Config) (files : FileTree) :
    config.FileInvariant (Recorded config files) := by
  constructor
  case disk =>
    intro s s' hdisk hs
    obtain ⟨hfiles, hrecorded⟩ := BuildState.eq_of_disk_eq hdisk
    refine hs.step (hfiles ▸ .refl _) [] (fun path => ?_) nofun fun k content hk => ?_
    · rw [hrecorded, or_iff_left List.not_mem_nil]
    · exact .inl (hfiles ▸ hk)
  case directories =>
    intro s directory t hs ht
    refine hs.of_files (retains_createDirectories ht) fun k content hk => ?_
    exact .inl ((sameFiles_createDirectories ht k content).1 hk)
  case output =>
    intro s path content t hs _ ht
    refine hs.step (retains_write ht) [path] (fun other => ?_) ?_ fun k kept hk => ?_
    · rw [BuildState.mem_recorded_output, List.mem_singleton]
    · exact List.forall_mem_singleton.2 (names_of_write ht)
    · by_cases hpath : k = Path.normalize s.files.current path
      · rw [hs.current] at hpath
        exact .inr (.inr ⟨path, List.mem_singleton_self path, hpath⟩)
      · exact .inl (get?_write_of_ne ht hpath ▸ hk)
  case report =>
    intro s source path t hs hpath ht
    refine hs.of_files (retains_copy ht) fun k content hk => ?_
    by_cases hplace : k = Path.normalize s.files.current path
    · rw [hs.current] at hplace
      exact .inr (.inr ⟨path, hpath, hplace⟩)
    · exact .inl (get?_copy_of_ne ht hplace ▸ hk)
  case copies =>
    intro s edits paths t hs ht
    have hretains := Copies.retains_write s.files edits
    rw [ht] at hretains
    refine hs.step hretains paths (fun other => BuildState.mem_recorded_copies)
      (fun path => Copies.names_of_writeOn ht) fun k content hk => ?_
    by_cases hplace : ∀ path ∈ paths, k ≠ Path.normalize s.files.current path
    · exact .inl (Copies.get?_of_write_eq_ok ht hplace ▸ hk)
    · simp only [not_forall, not_not, hs.current] at hplace
      obtain ⟨path, hpath, heq⟩ := hplace
      exact .inr (.inr ⟨path, hpath, heq⟩)
  case rolledBack =>
    intro s edits e t hs ht
    have hretains := Copies.retains_write s.files edits
    rw [ht] at hretains
    exact hs.of_files hretains fun k content hk => .inl (Copies.get?_of_write_eq_error ht hk)

/-- The state of a build before it cleans up. -/
def beforeCleanUp (config : Config) (compiler : Compiler) (files : FileTree) : BuildState :=
  ((Build.buildAll config compiler).run.run (.start files)).2

/-- What is left of the files of a build. -/
structure CleanedUp (config : Config) (files : FileTree) (s : BuildState) (t : FileTree) :
    Prop where
  /-- All that was written and may not stay was recorded. -/
  recorded : ∀ k content, s.files.entries.get? k = some (.file content) →
    config.MayStay files k content ∨ ∃ path ∈ s.recorded, k = Path.normalize files.current path
  /-- Nothing that was recorded is left. -/
  removed : ∀ path ∈ s.recorded, ∀ content,
    t.entries.get? (Path.normalize files.current path) ≠ some (.file content)
  accounted : ∀ k content, t.entries.get? k = some (.file content) →
    config.MayStay files k content

/-- In the end a build removes what is recorded, unless it is to be debugged or a broken syntax
tree stopped it. -/
theorem files_build (config : Config) (compiler : Compiler) (files : FileTree) :
    (config.debug = true ∨
        ∃ e, (config.build compiler files).1 = .error e ∧ e.isBrokenTree = true) ∧
      (config.build compiler files).2.files = (config.beforeCleanUp compiler files).files ∨
    (config.build compiler files).2.files =
      Copies.removeAll (config.beforeCleanUp compiler files).files
        (config.beforeCleanUp compiler files).recorded := by
  unfold build beforeCleanUp
  obtain ⟨e | ⟨⟩, s⟩ := (Build.buildAll config compiler).run.run (.start files)
  · cases hdebug : config.debug <;> cases hbroken : e.isBrokenTree <;>
      simp [hbroken, Build.cleanUp, BuildState.recorded]
  · dsimp only
    split <;> cases hdebug : config.debug <;> simp [Build.cleanUp, BuildState.recorded]

/-- Nothing that is generated outlives a build that is not to be debugged, however it ends. -/
theorem build_cleansUp (config : Config) (compiler : Compiler) (files : FileTree)
    (hdebug : config.debug = false)
    (hreturns : ∀ e, (config.build compiler files).1 = .error e → e.isBrokenTree = false) :
    CleanedUp config files (config.beforeCleanUp compiler files)
      (config.build compiler files).2.files := by
  have hs : Recorded config files (config.beforeCleanUp compiler files) :=
    Build.preserves_buildAll (recorded_fileInvariant config files) compiler _
      (recorded_start config files)
  have hfinal := (files_build config compiler files).resolve_left fun h =>
    h.1.elim (by simp [hdebug]) fun ⟨e, he, hbroken⟩ => by simp [hreturns e he] at hbroken
  have hremoved : ∀ path ∈ (config.beforeCleanUp compiler files).recorded, ∀ content,
      (config.build compiler files).2.files.entries.get? (Path.normalize files.current path) ≠
        some (.file content) := by
    intro path hpath content
    obtain ⟨place, hnames, hplace⟩ := hs.names path hpath
    have hnone := Copies.notFile_removeAll_of_mem hpath hnames hplace content
    rwa [hnames.eq_resolve, pathOf_resolve, hs.current, ← hfinal] at hnone
  constructor
  case recorded =>
    exact hs.accounted
  case removed =>
    exact hremoved
  case accounted =>
    intro k content hk
    have hkept : (config.beforeCleanUp compiler files).files.entries.get? k =
        some (.file content) := by
      by_contra hnone
      rw [hfinal] at hk
      exact Copies.notFile_removeAll hnone _ hk
    refine (hs.accounted k content hkept).resolve_right ?_
    rintro ⟨path, hpath, rfl⟩
    exact hremoved path hpath content hk

section BrokenOff

/-! A build that breaks off at its second file, for which the compiler has no answer. -/

def brokenOffConfig : Config := { files := ["/p/C.sol", "/p/D.sol"], configDir := "/p/out" }

def brokenOffCompiler : Compiler :=
  .ofOutputs (["/p/C.sol", "/p/autoFinder_C.sol"].map fun file =>
    (file, .ofFiles [(file, [.ofContract 2 "C" []], [("C", .ofCode "6080" none)])]))

def brokenOffFiles : FileTree :=
  .ofEntries "/p" [("/p/C.sol", .file []), ("/p/D.sol", .file [])]

theorem build_cleansUp_brokenOff :
    brokenOffConfig.debug = false ∧
      (brokenOffConfig.build brokenOffCompiler brokenOffFiles).1 =
        .error (.tool (.unreadableOutput "solc")) ∧
      (brokenOffConfig.beforeCleanUp brokenOffCompiler brokenOffFiles).recorded =
        ["/p/autoFinder_C.sol", "/p/out/C.sol_0.standard.json",
          "/p/out/autoFinder_C.sol_0.standard.json"] ∧
      CleanedUp brokenOffConfig brokenOffFiles
        (brokenOffConfig.beforeCleanUp brokenOffCompiler brokenOffFiles)
        (brokenOffConfig.build brokenOffCompiler brokenOffFiles).2.files := by
  have hfault : (brokenOffConfig.build brokenOffCompiler brokenOffFiles).1 =
      .error (.tool (.unreadableOutput "solc")) := by decide +kernel
  refine ⟨rfl, hfault, by decide +kernel, build_cleansUp _ _ _ rfl fun e he => ?_⟩
  rw [hfault] at he
  cases he
  rfl

end BrokenOff

end Config

end ContractModel
