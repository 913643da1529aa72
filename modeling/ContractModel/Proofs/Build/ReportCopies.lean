import ContractModel.Proofs.Build.Frame

/-! # Copies for the report

The sources of each compilation of a build are copied for the report: into the directory of the
unit, or for Vyper into the configuration directory itself. A build collects the units of its files
one after the other, and for a file in Solidity also those of its instrumented copy, so what it
copies is known from the states that it does this in. Nothing else that it does with files is a copy
for the report.
-/

namespace ContractModel

open Run Build

/-- A source that is copied for the report, and the compilation that it belongs to. -/
structure ReportCopy where
  /-- The file that is compiled. -/
  input : String
  lang : Language
  directory : String
  id : Nat
  source : String
  deriving DecidableEq

namespace ReportCopy

def target (a : ReportCopy) : String :=
  Path.append a.directory (Text.decimal a.id ++ "_" ++ Collect.nameOf a.source)

/-- The copies that are made until one cannot be made, and the files after them. -/
def inTurn (files : FileTree) : List ReportCopy → List ReportCopy × FileTree
  | [] => ([], files)
  | a :: rest =>
    match files.copy a.source a.target with
    | .error _ => ([], files)
    | .ok files => (a :: (inTurn files rest).1, (inTurn files rest).2)

theorem mem_and_copy_of_inTurn {files : FileTree} {a : ReportCopy} {copies : List ReportCopy}
    (h : a ∈ (inTurn files copies).1) :
    a ∈ copies ∧ ∃ t t', FileTree.copy t a.source a.target = .ok t' := by
  induction copies generalizing files with
  | nil => cases h
  | cons b rest ih =>
    unfold inTurn at h
    split at h
    · cases h
    · next t hcopy =>
      rcases List.mem_cons.1 h with rfl | h
      · exact ⟨List.mem_cons_self, _, t, hcopy⟩
      · exact (ih h).imp_left (List.mem_cons_of_mem b)

end ReportCopy

namespace Compilation

variable {config : Config} {setting : BuildSetting} {c : Compilation}

def reportDirectory (config : Config) (c : Compilation) : String :=
  match c.toolchain.lang with
  | .solidity => Path.append config.configDir c.unitName
  | .vyper => config.configDir

def reportCopies (config : Config) (c : Compilation) : List ReportCopy :=
  c.output.allSources.entries.map fun e =>
    ⟨c.file, c.toolchain.lang, c.reportDirectory config, e.2.id, e.1⟩

/-- The copies that are made of the sources, and the files after them. -/
def report (config : Config) (c : Compilation) (files : FileTree) : List ReportCopy × FileTree :=
  match files.createDirectories (c.reportDirectory config) with
  | .error _ => ([], files)
  | .ok files => ReportCopy.inTurn files (c.reportCopies config)

/-- No two sources have one identifier. -/
def HasDistinctIds (c : Compilation) : Prop :=
  (c.output.allSources.entries.map fun e => e.2.id).Nodup

instance : Decidable c.HasDistinctIds :=
  inferInstanceAs (Decidable (c.output.allSources.entries.map fun e => e.2.id).Nodup)

theorem files_copySources (setting : BuildSetting) (c : Compilation) (s : BuildState) :
    ((Collect.copySources setting c.unitName c.toolchain.lang c.output).run.run s).2.files =
      (c.report setting.config s.files).2 := by
  have hentries (entries : List (String × CompiledSource)) (lists : Collect.SourceLists)
      (s : BuildState) : ((entries.foldlM (fun lists e => do
          let copyName := Text.decimal e.2.id ++ "_" ++ Collect.nameOf e.1
          let directory := c.reportDirectory setting.config
          Build.onFiles (fun fault => .input (.sourceCopy e.1 directory fault)) fun files =>
            files.copy e.1 (Path.append directory copyName)
          return (⟨lists.sources.insert e.2.id e.1,
            lists.report.insert e.2.id (c.unitName ++ "/" ++ copyName)⟩ : Collect.SourceLists))
        lists : Build Collect.SourceLists).run.run s).2.files =
      (ReportCopy.inTurn s.files (entries.map fun e =>
        ⟨c.file, c.toolchain.lang, c.reportDirectory setting.config, e.2.id, e.1⟩)).2 := by
    induction entries generalizing lists s with
    | nil => rfl
    | cons e entries ih =>
      rw [List.foldlM_cons, List.map_cons, ReportCopy.inTurn, run_bind, run_bind, run_onFiles]
      dsimp only [ReportCopy.target]
      cases s.files.copy e.1 _ with
      | error fault => rfl
      | ok files => exact ih _ _
  unfold Collect.copySources report
  extract_lets configDir directory
  have hdirectory : directory = c.reportDirectory setting.config := rfl
  rw [run_bind, run_onFiles, hdirectory]
  dsimp only
  cases s.files.createDirectories (c.reportDirectory setting.config) with
  | error fault => rfl
  | ok files => exact hentries _ _ _

end Compilation

namespace Build

variable {setting : BuildSetting} {prototypes : SortedMap String (List String)} {file : String}
  {index : Nat} {files : List (String × Nat)} {current : String} {s s' : BuildState}

/-- Units that are collected in the course of a build, in a state. -/
structure Collection where
  setting : BuildSetting
  file : String
  configFile : String
  index : Nat
  isGenerated : Bool
  start : BuildState

namespace Collection

/-- The compilation, and the state after it. -/
def compiled (col : Collection) : Option (Compilation × BuildState) :=
  match (Collect.compile col.setting col.file col.configFile col.index col.isGenerated).run.run
      col.start with
  | (.ok c, t) => some (c, t)
  | (.error _, _) => none

/-- The units, and the state after they are collected. -/
def collected (col : Collection) : Except Error (List BuildUnit) × BuildState :=
  (Collect.units col.setting col.file col.configFile col.index col.isGenerated).run.run col.start

/-- The copies that are made for the report. -/
def copies (col : Collection) : List ReportCopy :=
  match col.compiled with
  | some (c, t) => (c.report col.setting.config t.files).1
  | none => []

theorem compiled_eq_some_iff {col : Collection} {c : Compilation} {t : BuildState} :
    col.compiled = some (c, t) ↔ (Collect.compile col.setting col.file col.configFile col.index
      col.isGenerated).run.run col.start = (.ok c, t) := by
  unfold compiled
  split
  · next heq =>
    rw [heq]
    constructor <;> rintro ⟨⟩ <;> rfl
  · next heq =>
    rw [heq]
    constructor <;> rintro ⟨⟩

theorem mem_copies_iff {col : Collection} {a : ReportCopy} : a ∈ col.copies ↔
    ∃ c t, col.compiled = some (c, t) ∧ a ∈ (c.report col.setting.config t.files).1 := by
  unfold copies
  split
  · next heq => simp [heq]
  · next heq => simp [heq]

/-- Collecting changes the files by compiling and by the copies alone. -/
theorem files_collected {col : Collection} {c : Compilation} {t : BuildState}
    (h : col.compiled = some (c, t)) :
    col.collected.2.files = (c.report col.setting.config t.files).2 := by
  obtain ⟨rest, hunits, hrest⟩ := Collect.exists_units_eq_bind col.setting col.file col.configFile
    col.index col.isGenerated
  have hkeeps (c : Compilation) (lists : Collect.SourceLists) :
      Keeps BuildState.files (rest c lists) :=
    hrest _ _ (fun _ _ => rfl) (fun _ _ => rfl) (fun _ _ => rfl) c lists
  unfold collected
  rw [hunits, run_bind, compiled_eq_some_iff.1 h]
  dsimp only
  rw [← Compilation.files_copySources, run_bind]
  split
  · next lists u hrun => rw [hrun, hkeeps c lists u]
  · next e u hrun => rw [hrun]

end Collection

/-- What is collected for a file: its units, and if all goes well with them and the file is in
Solidity, those of its instrumented copy. -/
def collectionsOf (setting : BuildSetting) (file : String) (index : Nat) (s : BuildState) :
    List Collection :=
  let first : Collection := ⟨setting, file, file, index, false, s⟩
  first :: match first.collected with
    | (.error _, _) => []
    | (.ok us, t) =>
      match checkMethod setting.config file us, Language.ofPath file with
      | .ok (), .solidity =>
        if us.isEmpty then []
        else
          match (Finders.instrument file us).run.run t with
          | (.ok (.ok (_, copy)), u) => [⟨setting, copy, file, index, true, u⟩]
          | _ => []
      | _, _ => []

/-- What is collected for the files, as far as they are built. -/
def collectionsFrom (setting : BuildSetting) (prototypes : SortedMap String (List String)) :
    List (String × Nat) → BuildState → List Collection
  | [], _ => []
  | (file, index) :: rest, s => collectionsOf setting file index s ++
    match (buildFile setting prototypes file index).run.run s with
    | (.error _, _) => []
    | (.ok (), t) => collectionsFrom setting prototypes rest t

/-- The units of a file or of its instrumented copy are collected. -/
structure Collection.IsFor (current file : String) (index : Nat) (col : Collection) : Prop where
  configFile : col.configFile = file
  index : col.index = index
  start : col.start.files.current = current
  source : col.file = if col.isGenerated then Copies.pathOf (Path.normalize current file) else file
  lang : col.isGenerated → Language.ofPath file = .solidity

theorem collectionsOf_cases (setting : BuildSetting) (file : String) (index : Nat)
    (s : BuildState) : ∃ rest, collectionsOf setting file index s =
      ⟨setting, file, file, index, false, s⟩ :: rest ∧
      (rest = [] ∨ ∃ copy u, rest = [⟨setting, copy, file, index, true, u⟩] ∧
        copy = Copies.pathOf (Path.normalize s.files.current file) ∧
        u.files.current = s.files.current ∧ Language.ofPath file = .solidity) := by
  refine ⟨_, rfl, ?_⟩
  split
  · exact .inl rfl
  · next us t hus =>
    have ht : t.files.current = s.files.current := by
      refine (Collect.keeps_units Finders.ignoresFiles_current ?_ ?_ ?_ _ _ _ _).eq hus
      all_goals exact fun _ _ => rfl
    split
    · next _ hlang =>
      split
      · exact .inl rfl
      · split
        · next copy u hinstrument =>
          have hu : u.files.current = t.files.current :=
            (Finders.keeps_instrument Finders.ignoresFiles_current (fun _ _ => rfl) _ _).eq
              hinstrument
          refine .inr ⟨copy, u, rfl, ?_, hu.trans ht, hlang⟩
          rw [Finders.copy_eq_of_instrument hinstrument, ht]
        · exact .inl rfl
    · exact .inl rfl

theorem isFor_of_mem {col : Collection} (h : col ∈ collectionsOf setting file index s) :
    col.setting = setting ∧ col.IsFor s.files.current file index := by
  obtain ⟨rest, heq, hrest⟩ := collectionsOf_cases setting file index s
  rw [heq] at h
  rcases List.mem_cons.1 h with rfl | h
  · exact ⟨rfl, rfl, rfl, rfl, rfl, nofun⟩
  · rcases hrest with rfl | ⟨copy, u, rfl, hcopy, hcurrent, hlang⟩
    · cases h
    · obtain rfl := List.mem_singleton.1 h
      exact ⟨rfl, rfl, rfl, hcurrent, hcopy.trans (if_pos rfl).symm, fun _ => hlang⟩

/-- The files that a build comes past: it changes them by collecting, and by writing instrumented
copies. -/
inductive Passes (cols : List Collection) (before : FileTree) : FileTree → Prop
  | start : Passes cols before before
  | collected {col : Collection} : col ∈ cols → Passes cols before col.start.files →
      Passes cols before col.collected.2.files
  | instrumented {file : String} {us : List BuildUnit} {s : BuildState} :
      Passes cols before s.files →
      Passes cols before ((Finders.instrument file us).run.run s).2.files

theorem files_instrumented (setting : BuildSetting) (file : String) (index : Nat)
    (us : List BuildUnit) (s : BuildState) :
    ((Finders.instrumented setting file index us).run.run s).2.files =
      if us.isEmpty then s.files
      else match (Finders.instrument file us).run.run s with
        | (.ok (.ok (_, copy)), t) =>
          (Collection.mk setting copy file index true t).collected.2.files
        | (_, t) => t.files := by
  unfold Finders.instrumented
  split
  · rfl
  rw [run_bind]
  rcases (Finders.instrument file us).run.run s with ⟨e | e | ⟨finders, copy⟩, t⟩
  · rfl
  · rfl
  · dsimp only
    rw [run_tryCatch, run_bind]
    unfold Collection.collected
    rcases (Collect.units setting copy file index true).run.run t with ⟨e | us, u⟩
    · dsimp only
      split <;> rfl
    · rfl

theorem passes_foundUnits {cols : List Collection} {before : FileTree}
    (hcols : ∀ col ∈ collectionsOf setting file index s, col ∈ cols)
    (h : Passes cols before s.files) :
    Passes cols before ((foundUnits setting file index).run.run s).2.files := by
  have hcollected : (Collect.units setting file file index false).run.run s =
      (Collection.mk setting file file index false s).collected := rfl
  have hfirst := Passes.collected (hcols _ List.mem_cons_self) h
  unfold foundUnits
  rw [run_bind, hcollected]
  unfold collectionsOf at hcols
  dsimp only at hcols
  rcases hus : (Collection.mk setting file file index false s).collected with ⟨e | us, t⟩
  · rwa [hus] at hfirst
  rw [hus] at hcols hfirst
  dsimp only at hcols hfirst ⊢
  cases hmethod : checkMethod setting.config file us with
  | error e => exact hfirst
  | ok =>
    cases hlang : Language.ofPath file with
    | vyper => exact hfirst
    | solidity =>
      change Passes cols before ((Finders.instrumented setting file index us).run.run t).2.files
      rw [files_instrumented]
      split
      · exact hfirst
      · next hne =>
        have hinstrumented : Passes cols before
            ((Finders.instrument file us).run.run t).2.files := .instrumented hfirst
        rw [hmethod, hlang] at hcols
        dsimp only at hcols
        rw [if_neg hne] at hcols
        rcases hrun : (Finders.instrument file us).run.run t with ⟨e | e | ⟨finders, copy⟩, u⟩
        · rwa [hrun] at hinstrumented
        · rwa [hrun] at hinstrumented
        · rw [hrun] at hcols hinstrumented
          exact .collected (hcols _ (List.mem_cons_of_mem _ (List.mem_singleton_self _)))
            hinstrumented

theorem nodup_collectionsOf (setting : BuildSetting) (file : String) (index : Nat)
    (s : BuildState) :
    ((collectionsOf setting file index s).map Collection.isGenerated).Nodup := by
  obtain ⟨rest, heq, hrest⟩ := collectionsOf_cases setting file index s
  rw [heq]
  rcases hrest with rfl | ⟨copy, u, rfl, -⟩
  · exact List.nodup_singleton _
  · exact show [false, true].Nodup by decide

theorem current_of_buildFile {r : Except Error Unit}
    (h : (buildFile setting prototypes file index).run.run s = (r, s')) :
    s'.files.current = s.files.current := by
  have hfound : Keeps (fun s : BuildState => s.files.current) (foundUnits setting file index) :=
    fun s => congrArg Prod.snd (keeps_foundUnits s)
  have hadd (found : List FoundUnit) :
      Keeps (fun s : BuildState => s.files.current) (addFound prototypes found) := by
    intro s
    have hdisk : BuildState.disk _ = s.disk := keeps_addFound prototypes found s
    exact congrArg (fun disk => disk.1.current) hdisk
  rw [buildFile_eq] at h
  exact (hfound.bind hadd).eq h

/-- Each collection is for one of the files. -/
theorem exists_isFor_of_mem {col : Collection}
    (h : col ∈ collectionsFrom setting prototypes files s) : col.setting = setting ∧
      ∃ p ∈ files, col.IsFor s.files.current p.1 p.2 := by
  induction files generalizing s with
  | nil => cases h
  | cons p files ih =>
    rcases List.mem_append.1 h with h | h
    · obtain ⟨hsetting, hcol⟩ := isFor_of_mem h
      exact ⟨hsetting, p, List.mem_cons_self, hcol⟩
    · split at h
      · cases h
      · next t hbuilt =>
        obtain ⟨hsetting, p', hp', hcol⟩ := ih h
        rw [current_of_buildFile hbuilt] at hcol
        exact ⟨hsetting, p', List.mem_cons_of_mem p hp', hcol⟩

theorem passes_buildFile {cols : List Collection} {before : FileTree}
    (hcols : ∀ col ∈ collectionsOf setting file index s, col ∈ cols)
    (h : Passes cols before s.files) :
    Passes cols before ((buildFile setting prototypes file index).run.run s).2.files := by
  have hfound := passes_foundUnits hcols h
  rw [buildFile_eq, run_bind]
  rcases hrun : (foundUnits setting file index).run.run s with ⟨e | found, t⟩
  · rwa [hrun] at hfound
  · rw [hrun] at hfound
    have hdisk := keeps_addFound prototypes found t
    rwa [show BuildState.files _ = t.files from congrArg Prod.fst hdisk]

theorem passes_files {cols : List Collection} {before : FileTree}
    (hcols : ∀ col ∈ collectionsFrom setting prototypes files s, col ∈ cols)
    (h : Passes cols before s.files) : Passes cols before
      ((files.forM fun p => buildFile setting prototypes p.1 p.2).run.run s).2.files := by
  induction files generalizing s with
  | nil => exact h
  | cons p files ih =>
    obtain ⟨file, index⟩ := p
    unfold collectionsFrom at hcols
    have hfile : Passes cols before
        ((buildFile setting prototypes file index).run.run s).2.files :=
      passes_buildFile (fun col hcol => hcols col (List.mem_append_left _ hcol)) h
    change Passes cols before ((buildFile setting prototypes file index >>= fun _ =>
      files.forM fun p => buildFile setting prototypes p.1 p.2).run.run s).2.files
    rw [run_bind]
    rcases hrun : (buildFile setting prototypes file index).run.run s with ⟨e | _, t⟩
    · rwa [hrun] at hfile
    · rw [hrun] at hcols hfile
      exact ih (fun col hcol => hcols col (List.mem_append_right _ hcol)) hfile

/-- For one file no two collections are of the same kind. -/
theorem nodup_collectionsFrom (h : (files.map Prod.snd).Nodup) (s : BuildState) :
    ((collectionsFrom setting prototypes files s).map fun col =>
      (col.index, col.isGenerated)).Nodup := by
  induction files generalizing s with
  | nil => exact .nil
  | cons p files ih =>
    obtain ⟨hp, hfiles⟩ := List.nodup_cons.1 (show (p.2 :: files.map Prod.snd).Nodup from h)
    have hfirst : ((collectionsOf setting p.1 p.2 s).map fun col =>
        (col.index, col.isGenerated)).Nodup := by
      refine List.Nodup.of_map Prod.snd ?_
      rw [List.map_map]
      exact nodup_collectionsOf setting p.1 p.2 s
    unfold collectionsFrom
    split
    · rwa [List.append_nil]
    · next t _ =>
      rw [List.map_append, List.nodup_append]
      refine ⟨hfirst, ih hfiles t, ?_⟩
      rintro _ hmem _ hmem' heq
      obtain ⟨col, hcol, rfl⟩ := List.mem_map.1 hmem
      obtain ⟨col', hcol', rfl⟩ := List.mem_map.1 hmem'
      obtain ⟨-, p', hp', hfor'⟩ := exists_isFor_of_mem hcol'
      have hindex : p.2 = p'.2 := by
        rw [← (isFor_of_mem hcol).2.index, ← hfor'.index]
        exact congrArg Prod.fst heq
      exact hp (hindex ▸ List.mem_map_of_mem hp')

end Build

namespace Config

open Build

variable {config : Config} {compiler : Compiler} {files : FileTree} {col col' : Collection}

/-- What a build collects, in order. -/
def collections (config : Config) (compiler : Compiler) (files : FileTree) : List Collection :=
  match config.functionFinders files, config.prototypes with
  | .ok finders, .ok prototypes =>
    collectionsFrom ⟨config, compiler, finders⟩ prototypes config.builtFiles (.start files)
  | _, _ => []

/-- The copies that a build makes for the report, in order. -/
def reportCopies (config : Config) (compiler : Compiler) (files : FileTree) : List ReportCopy :=
  (config.collections compiler files).flatMap Collection.copies

/-- What is collected and copied is all that a build does with files but for writing instrumented
copies, until it removes what it does not need any more. -/
theorem passes_buildAll (config : Config) (compiler : Compiler) (files : FileTree) :
    Passes (config.collections compiler files) files
      ((buildAll config compiler).run.run (.start files)).2.files := by
  unfold buildAll collections
  rw [run_get_bind, show (BuildState.start files).files = files from rfl]
  cases config.functionFinders files with
  | error e => exact .start
  | ok finders =>
    cases config.prototypes with
    | error e => exact .start
    | ok prototypes =>
      let setting : BuildSetting := ⟨config, compiler, finders⟩
      let cols := collectionsFrom setting prototypes config.builtFiles (.start files)
      let built := config.builtFiles.forM fun p => buildFile setting prototypes p.1 p.2
      have hbuilt : Passes cols files (built.run.run (.start files)).2.files :=
        passes_files (fun _ hcol => hcol) .start
      have hlinks : Keeps BuildState.files (Links.applyAll setting) :=
        Links.keeps_applyAll ⟨fun _ _ _ _ => rfl, fun _ _ => rfl⟩
      change Passes cols files
        ((built >>= fun _ => Links.applyAll setting).run.run (.start files)).2.files
      rw [run_bind]
      split
      · next t hrun =>
        rw [hrun] at hbuilt
        rwa [hlinks t]
      · next e t hrun =>
        rwa [hrun] at hbuilt

theorem nodup_builtFiles (config : Config) : (config.builtFiles.map Prod.snd).Nodup := by
  rw [builtFiles, List.zipIdx_map_snd]
  exact List.nodup_range'

theorem exists_isFor_of_collections (h : col ∈ config.collections compiler files) :
    col.setting.config = config ∧ ∃ p ∈ config.builtFiles, col.IsFor files.current p.1 p.2 := by
  unfold collections at h
  split at h
  · obtain ⟨hsetting, hcol⟩ := exists_isFor_of_mem h
    exact ⟨congrArg BuildSetting.config hsetting, hcol⟩
  · cases h

theorem eq_of_index_of_isGenerated (h : col ∈ config.collections compiler files)
    (h' : col' ∈ config.collections compiler files) (hindex : col.index = col'.index)
    (hkind : col.isGenerated = col'.isGenerated) : col = col' := by
  unfold collections at h h'
  split at h
  · next finders prototypes hfinders hprototypes =>
    rw [hfinders, hprototypes] at h'
    exact List.inj_on_of_nodup_map (nodup_collectionsFrom (nodup_builtFiles config) _) h h'
      (Prod.ext hindex hkind)
  · cases h

/-- Two collections with one index are for one file. -/
theorem configFile_eq_of_index (h : col ∈ config.collections compiler files)
    (h' : col' ∈ config.collections compiler files) (hindex : col.index = col'.index) :
    col.configFile = col'.configFile := by
  obtain ⟨-, p, hp, hcol⟩ := exists_isFor_of_collections h
  obtain ⟨-, p', hp', hcol'⟩ := exists_isFor_of_collections h'
  have hsame : p = p' := by
    refine List.inj_on_of_nodup_map (nodup_builtFiles config) hp hp' ?_
    rw [← hcol.index, ← hcol'.index, hindex]
  rw [hcol.configFile, hcol'.configFile, hsame]

end Config

end ContractModel
