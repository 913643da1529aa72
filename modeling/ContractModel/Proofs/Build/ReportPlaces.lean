import ContractModel.Proofs.Build.ReportCopies
import ContractModel.Proofs.Instrument.CopyPaths

/-! # Where sources are copied for the report

The directory of a unit ends in the name of the compiled file and its place in the build, and a copy
in it in the identifier and the name of the source. So two sources are copied to one place only
where the directory is not that of a unit.
-/

namespace ContractModel

open Run

namespace Path

open Text

theorem exists_resolve_of_segments {path : String} {front : List (List Char)} {name : List Char}
    (h : splitOnChar '/' path.toList = front ++ [name]) (hname : Plain name)
    (current : List (List Char)) : ∃ above, resolve current path = above ++ [name] := by
  have hsteps : steps [name] = [name] := by simp [steps, hname.nonempty, hname.dot]
  unfold resolve
  rw [components_eq_steps, h, steps_append, hsteps, walk_append,
    walk_of_plain (List.forall_mem_singleton.2 hname)]
  exact ⟨_, rfl⟩

end Path

namespace Collect

open ContractModel.Path Text

variable {file : String} {index index' : Nat}

/-- What stands behind the last slash in the name that a file gives its units. -/
def lastPart (file : String) : List Char :=
  (splitOnChar '/' (nameOf file).toList).getLast (splitOnChar_ne_nil '/' _)

theorem splitOnChar_nameOf (file : String) :
    ∃ front, splitOnChar '/' (nameOf file).toList = front ++ [lastPart file] :=
  ⟨_, (List.dropLast_append_getLast _).symm⟩

/-- The directory of a unit is found under a name that tells the file and its place in the build. -/
theorem exists_resolve_unitName (directory file : String) (index : Nat)
    (current : List (List Char)) : ∃ above,
      resolve current (append directory (nameOf file ++ "_" ++ decimal index)) =
        above ++ [lastPart file ++ '_' :: (decimal index).toList] := by
  have hnumber : '/' ∉ '_' :: (decimal index).toList := by
    simpa using slash_notMem_decimal index
  obtain ⟨front, last, hname, hunit⟩ := exists_splitOnChar_append hnumber (nameOf file).toList
  obtain ⟨front', hlast⟩ := splitOnChar_nameOf file
  obtain ⟨-, rfl⟩ := List.append_singleton_inj.1 (hname.symm.trans hlast)
  obtain ⟨above, -, hpath⟩ :=
    exists_splitOnChar_pathAppend directory (nameOf file ++ "_" ++ decimal index)
  have htext : (nameOf file ++ "_" ++ decimal index).toList =
      (nameOf file).toList ++ '_' :: (decimal index).toList := by simp
  rw [htext, hunit, ← List.append_assoc] at hpath
  refine exists_resolve_of_segments hpath (Config.plain_of_underscore ?_ (by simp)) current
  have hslash : '/' ∉ lastPart file :=
    notMem_of_mem_splitOnChar (hlast ▸ List.mem_append_right _ (List.mem_singleton_self _))
  rw [List.mem_append, not_or]
  exact ⟨hslash, hnumber⟩

theorem lastPart_of_slashFree (h : '/' ∉ (nameOf file).toList) :
    lastPart file = (nameOf file).toList := by
  unfold lastPart
  simp only [splitOnChar_of_notMem h, List.getLast_singleton]

/-- A file without a name ends in nothing that is a name. -/
theorem not_plain_lastPart (h : fileName? file = none) : ¬ Plain (lastPart file) := by
  intro hplain
  obtain ⟨front, hfile⟩ := splitOnChar_nameOf file
  rw [nameOf, h, Option.getD_none] at hfile
  rw [fileName?_of_segments hfile hplain] at h
  cases h

/-- The copy of a file with a name has the same name behind the prefix of copies. -/
theorem nameOf_pathOf {above : String} {name : List Char}
    (hsplit : splitName file = some (above, name)) (current : String) :
    nameOf (Copies.pathOf (normalize current file)) =
      String.ofList (Copies.namePrefix.toList ++ name) := by
  obtain ⟨hname, -⟩ := exists_front_of_splitName hsplit
  have hnormal : normalize current file =
      String.ofList (join (resolve (walk [] (components current.toList)) above ++ [name])) := by
    rw [Path.normalize, resolve_of_splitName hsplit]
  have habove := plain_resolve (plain_components current) above
  rw [hnormal, Copies.pathOf_join habove hname, nameOf, fileName?,
    splitName_join habove (Copies.plain_prefixed hname.slash), Option.map_some, Option.getD_some]

/-- The units of a file and of its instrumented copy have different names. -/
theorem lastPart_copy_ne (current file : String) :
    lastPart (Copies.pathOf (normalize current file)) ≠ lastPart file := by
  obtain ⟨hslash, hhidden⟩ := (endsHidden_pathOf (normalize current file)).nameOf
  rw [lastPart_of_slashFree hslash]
  intro heq
  cases hsplit : splitName file with
  | none =>
    have hplain : Plain (nameOf (Copies.pathOf (normalize current file))).toList := by
      refine ⟨hslash, ?_, ?_, ?_⟩
      all_goals
        intro hname
        rw [hname] at hhidden
        exact absurd hhidden (by decide)
    rw [heq] at hplain
    exact not_plain_lastPart (by rw [fileName?, hsplit, Option.map_none]) hplain
  | some parts =>
    obtain ⟨above, name⟩ := parts
    obtain ⟨hname, -⟩ := exists_front_of_splitName hsplit
    have hfile : nameOf file = String.ofList name := by
      rw [nameOf, fileName?, hsplit, Option.map_some, Option.getD_some]
    have hfree : '/' ∉ (nameOf file).toList := by
      rw [hfile, String.toList_ofList]
      exact hname.slash
    rw [nameOf_pathOf hsplit, lastPart_of_slashFree hfree, hfile, String.toList_ofList,
      String.toList_ofList] at heq
    have hlength := congrArg List.length heq
    rw [List.length_append] at hlength
    have hprefix : 0 < Copies.namePrefix.toList.length := by decide
    omega

end Collect

namespace ReportCopy

open ContractModel.Path

variable {a b : ReportCopy} {current : List (List Char)}

/-- A copy that is made is found in its directory, under its identifier and the name of the source. -/
theorem resolve_target {t t' : FileTree} (h : t.copy a.source a.target = .ok t')
    (current : List (List Char)) : resolve current a.target = resolve current a.directory ++
      [(Text.decimal a.id).toList ++ '_' :: (Collect.nameOf a.source).toList] := by
  obtain ⟨place, _, hplace, -⟩ := FileTree.copy_eq_ok h
  have hslash : '/' ∉ (Collect.nameOf a.source).toList :=
    Config.slash_notMem_nameOf (FileTree.writable_eq_ok_iff.1 hplace).1
  have hplain : Plain (Text.decimal a.id ++ "_" ++ Collect.nameOf a.source).toList := by
    refine Config.plain_of_underscore ?_ (by simp)
    simpa [hslash] using slash_notMem_decimal a.id
  rw [target, resolve_append hplain]
  simp

theorem resolve_target_eq_iff {t t' u u' : FileTree} (h : t.copy a.source a.target = .ok t')
    (h' : u.copy b.source b.target = .ok u') :
    resolve current a.target = resolve current b.target ↔
      resolve current a.directory = resolve current b.directory ∧ a.id = b.id ∧
        Collect.nameOf a.source = Collect.nameOf b.source := by
  rw [resolve_target h, resolve_target h']
  constructor
  · intro heq
    obtain ⟨hdirectory, hname⟩ := List.append_singleton_inj.1 heq
    have hdigits (n : Nat) : '_' ∉ (Text.decimal n).toList := notMem_decimal (by decide) n
    obtain ⟨hid, hname⟩ :=
      AddressBook.separator_append_injective (hdigits _) (hdigits _) hname
    exact ⟨hdirectory, Text.decimal_injective (String.toList_injective hid),
      String.toList_injective hname⟩
  · rintro ⟨hdirectory, hid, hname⟩
    rw [hdirectory, hid, hname]

end ReportCopy

namespace Config

open Build

variable {config : Config} {compiler : Compiler} {files : FileTree} {col col' : Collection}
  {a b : ReportCopy} {c : Compilation}

/-- The copy is made in the configuration directory itself. -/
def IsDirect (config : Config) (current : List (List Char)) (a : ReportCopy) : Prop :=
  Path.resolve current a.directory = Path.resolve current config.configDir

theorem exists_of_mem_reportCopies (h : a ∈ config.reportCopies compiler files) :
    ∃ col ∈ config.collections compiler files, ∃ c t, col.compiled = some (c, t) ∧
      a ∈ c.reportCopies config ∧ ∃ u u', FileTree.copy u a.source a.target = .ok u' := by
  obtain ⟨col, hcol, ha⟩ := List.mem_flatMap.1 h
  obtain ⟨c, t, hcompiled, ha⟩ := Collection.mem_copies_iff.1 ha
  obtain ⟨hconfig, -⟩ := exists_isFor_of_collections hcol
  rw [hconfig] at ha
  refine ⟨col, hcol, c, t, hcompiled, ?_⟩
  unfold Compilation.report at ha
  split at ha
  · cases ha
  · exact ReportCopy.mem_and_copy_of_inTurn ha

/-- In a unit's directory there are only copies that are made for that unit. -/
theorem eq_of_directory (h : col ∈ config.collections compiler files)
    (h' : col' ∈ config.collections compiler files) {current : List (List Char)}
    (heq : Path.resolve current (Path.append config.configDir
        (Collect.nameOf col.file ++ "_" ++ Text.decimal col.index)) =
      Path.resolve current (Path.append config.configDir
        (Collect.nameOf col'.file ++ "_" ++ Text.decimal col'.index))) : col = col' := by
  obtain ⟨above, hplace⟩ :=
    Collect.exists_resolve_unitName config.configDir col.file col.index current
  obtain ⟨above', hplace'⟩ :=
    Collect.exists_resolve_unitName config.configDir col'.file col'.index current
  rw [hplace, hplace'] at heq
  obtain ⟨-, hname⟩ := List.append_singleton_inj.1 heq
  have hdigits (n : Nat) : '_' ∉ (Text.decimal n).toList := Path.notMem_decimal (by decide) n
  obtain ⟨hlast, hindex⟩ :=
    AddressBook.append_separator_injective (hdigits _) (hdigits _) hname
  have hindex : col.index = col'.index := Text.decimal_injective (String.toList_injective hindex)
  refine eq_of_index_of_isGenerated h h' hindex ?_
  have hfile := configFile_eq_of_index h h' hindex
  obtain ⟨-, p, -, hfor⟩ := exists_isFor_of_collections h
  obtain ⟨-, p', -, hfor'⟩ := exists_isFor_of_collections h'
  rw [hfor.source, hfor'.source, ← hfor.configFile, ← hfor'.configFile, ← hfile] at hlast
  cases hkind : col.isGenerated <;> cases hkind' : col'.isGenerated
  · rfl
  · rw [hkind, hkind', if_neg Bool.false_ne_true, if_pos rfl] at hlast
    exact absurd hlast.symm (Collect.lastPart_copy_ne files.current col.configFile)
  · rw [hkind, hkind', if_neg Bool.false_ne_true, if_pos rfl] at hlast
    exact absurd hlast (Collect.lastPart_copy_ne files.current col.configFile)
  · rfl

theorem isDirect_of_vyper {current : List (List Char)} (ha : a ∈ c.reportCopies config)
    (hlang : a.lang = .vyper) : config.IsDirect current a := by
  obtain ⟨e, -, rfl⟩ := List.mem_map.1 ha
  unfold IsDirect Compilation.reportDirectory
  dsimp only at hlang ⊢
  rw [hlang]

/-- What is copied for a unit in Solidity is copied into the directory of the unit. -/
theorem directory_eq_of_solidity {t : BuildState} (hcompiled : col.compiled = some (c, t))
    (ha : a ∈ c.reportCopies config) (hlang : a.lang = .solidity) : a.input = col.file ∧
      a.directory = Path.append config.configDir
        (Collect.nameOf col.file ++ "_" ++ Text.decimal col.index) := by
  obtain ⟨hfile, hunitName, -⟩ :=
    Collect.compile_eq_ok (Collection.compiled_eq_some_iff.1 hcompiled)
  obtain ⟨e, -, rfl⟩ := List.mem_map.1 ha
  refine ⟨hfile, ?_⟩
  unfold Compilation.reportDirectory
  dsimp only at hlang ⊢
  rw [hlang, ← hunitName]

theorem not_isDirect_of_named {t : BuildState} {current : List (List Char)}
    (hcompiled : col.compiled = some (c, t)) (ha : a ∈ c.reportCopies config)
    (hlang : a.lang = .solidity) (hnamed : (Path.fileName? a.input).isSome) :
    ¬ config.IsDirect current a := by
  obtain ⟨hinput, hdirectory⟩ := directory_eq_of_solidity hcompiled ha hlang
  obtain ⟨name, hname⟩ := Option.isSome_iff_exists.1 hnamed
  have hslash : '/' ∉ (Collect.nameOf col.file).toList := by
    rw [Collect.nameOf, ← hinput, hname]
    exact Path.slash_notMem_of_fileName? hname
  have hplain : Path.Plain (Collect.nameOf col.file ++ "_" ++ Text.decimal col.index).toList := by
    refine plain_of_underscore ?_ (by simp)
    simpa [hslash] using Path.slash_notMem_decimal col.index
  unfold IsDirect
  rw [hdirectory, Path.resolve_append hplain]
  exact fun heq => absurd heq (by simp)

theorem lang_of_not_isDirect {current : List (List Char)} (ha : a ∈ c.reportCopies config)
    (hindirect : ¬ config.IsDirect current a) : a.lang = .solidity := by
  cases hlang : a.lang with
  | solidity => rfl
  | vyper => exact absurd (isDirect_of_vyper ha hlang) hindirect

/-- In a directory that is not the configuration directory, the identifier tells the source. -/
theorem source_eq_of_not_isDirect {current : List (List Char)}
    (hids : ∀ col ∈ config.collections compiler files, ∀ p ∈ col.compiled, p.1.HasDistinctIds)
    (ha : a ∈ config.reportCopies compiler files) (hb : b ∈ config.reportCopies compiler files)
    (hindirect : ¬ config.IsDirect current a)
    (hdirectory : Path.resolve current a.directory = Path.resolve current b.directory)
    (hid : a.id = b.id) : a.source = b.source := by
  obtain ⟨col, hcol, c, t, hcompiled, ha, -⟩ := exists_of_mem_reportCopies ha
  obtain ⟨col', hcol', c', t', hcompiled', hb, -⟩ := exists_of_mem_reportCopies hb
  have hlang := lang_of_not_isDirect ha hindirect
  have hlang' := lang_of_not_isDirect hb fun hdirect => hindirect (hdirectory.trans hdirect)
  rw [(directory_eq_of_solidity hcompiled ha hlang).2,
    (directory_eq_of_solidity hcompiled' hb hlang').2] at hdirectory
  obtain rfl := eq_of_directory hcol hcol' hdirectory
  obtain ⟨rfl, rfl⟩ : c = c' ∧ t = t' := by simpa using hcompiled.symm.trans hcompiled'
  obtain ⟨e, he, rfl⟩ := List.mem_map.1 ha
  obtain ⟨e', he', rfl⟩ := List.mem_map.1 hb
  have hsame : e = e' := List.inj_on_of_nodup_map (hids col hcol _ hcompiled) he he' hid
  exact congrArg Prod.fst hsame

/-- All files that a build copies, it copies by collecting units. The copies of different sources are
at one place exactly if both are made in the configuration directory itself and agree in identifier
and name. Those for Vyper are all made there, and those for a file in Solidity that has a name are
not. -/
theorem reportCopies_collide_iff (config : Config) (compiler : Compiler) (files : FileTree)
    (hids : ∀ col ∈ config.collections compiler files, ∀ p ∈ col.compiled, p.1.HasDistinctIds) :
    Passes (config.collections compiler files) files
      ((buildAll config compiler).run.run (.start files)).2.files ∧
    (∀ col ∈ config.collections compiler files, ∀ c t, col.compiled = some (c, t) →
      col.start.files.current = files.current ∧
        col.collected.2.files = (c.report config t.files).2) ∧
    (∀ a ∈ config.reportCopies compiler files,
      (a.lang = .vyper → config.IsDirect files.home a) ∧
        (a.lang = .solidity → (Path.fileName? a.input).isSome → ¬ config.IsDirect files.home a)) ∧
    ∀ a ∈ config.reportCopies compiler files, ∀ b ∈ config.reportCopies compiler files,
      a.source ≠ b.source →
        (Path.resolve files.home a.target = Path.resolve files.home b.target ↔
          config.IsDirect files.home a ∧ config.IsDirect files.home b ∧ a.id = b.id ∧
            Collect.nameOf a.source = Collect.nameOf b.source) := by
  refine ⟨passes_buildAll config compiler files, fun col hcol c t hcompiled => ?_,
    fun a ha => ?_, fun a ha b hb hne => ?_⟩
  · obtain ⟨hconfig, p, -, hfor⟩ := exists_isFor_of_collections hcol
    exact ⟨hfor.start, hconfig ▸ Collection.files_collected hcompiled⟩
  · obtain ⟨col, hcol, c, t, hcompiled, ha, -⟩ := exists_of_mem_reportCopies ha
    exact ⟨isDirect_of_vyper ha, not_isDirect_of_named hcompiled ha⟩
  · obtain ⟨-, -, -, -, -, -, _, _, hcopy⟩ := exists_of_mem_reportCopies ha
    obtain ⟨-, -, -, -, -, -, _, _, hcopy'⟩ := exists_of_mem_reportCopies hb
    rw [ReportCopy.resolve_target_eq_iff hcopy hcopy']
    constructor
    · rintro ⟨hdirectory, hid, hname⟩
      have hdirect : config.IsDirect files.home a := by
        by_contra hindirect
        exact hne (source_eq_of_not_isDirect hids ha hb hindirect hdirectory hid)
      exact ⟨hdirect, hdirectory.symm.trans hdirect, hid, hname⟩
    · rintro ⟨hdirect, hdirect', hid, hname⟩
      exact ⟨hdirect.trans hdirect'.symm, hid, hname⟩

section Tokens

/-! Two sources with one name in different directories, in one compilation in Solidity, whose
instrumented copy the compiler refuses, and in two in Vyper. -/

def tokensCompiler : Compiler :=
  let code : List (String × CompiledContract) := [("Token", .ofCode "6080" none)]
  let message : Diagnostic := ⟨"general", none, "", "stack too deep", "error", "CompilerError"⟩
  .ofOutputs [
    ("/p/a/Token.sol", .ofFiles [("/p/a/Token.sol", [.ofContract 1 "Token" []], code),
      ("/p/b/Token.sol", [], [])]),
    ("/p/a/autoFinder_Token.sol", ⟨none, none, some [message]⟩),
    ("/p/a/Token.vy", .ofFiles [("/p/a/Token.vy", [], code)]),
    ("/p/b/Token.vy", .ofFiles [("/p/b/Token.vy", [], code)])]

def tokensFiles : FileTree :=
  .ofEntries "/p" (["/p/a/Token.sol", "/p/b/Token.sol", "/p/a/Token.vy", "/p/b/Token.vy"].map
    fun file => (file, .file []))

def solidityToken : Config := { files := ["/p/a/Token.sol"], configDir := "/p/out" }

def vyperTokens : Config := { files := ["/p/a/Token.vy", "/p/b/Token.vy"], configDir := "/p/out" }

theorem reportCopies_collide_solidity :
    (∀ col ∈ solidityToken.collections tokensCompiler tokensFiles, ∀ p ∈ col.compiled,
      p.1.HasDistinctIds) ∧
    ∃ a ∈ solidityToken.reportCopies tokensCompiler tokensFiles,
      ∃ b ∈ solidityToken.reportCopies tokensCompiler tokensFiles,
        a.source = "/p/a/Token.sol" ∧ b.source = "/p/b/Token.sol" ∧
        Path.resolve tokensFiles.home a.target ≠ Path.resolve tokensFiles.home b.target := by
  have hrun : (∀ col ∈ solidityToken.collections tokensCompiler tokensFiles, ∀ p ∈ col.compiled,
      p.1.HasDistinctIds) ∧
    ∃ a ∈ solidityToken.reportCopies tokensCompiler tokensFiles,
      ∃ b ∈ solidityToken.reportCopies tokensCompiler tokensFiles,
        a.source = "/p/a/Token.sol" ∧ b.source = "/p/b/Token.sol" ∧ a.lang = .solidity ∧
        (Path.fileName? a.input).isSome := by decide +kernel
  obtain ⟨hids, a, ha, b, hb, hsource, hsource', hlang, hnamed⟩ := hrun
  obtain ⟨-, -, hdirect, happart⟩ := reportCopies_collide_iff _ _ _ hids
  have hne : a.source ≠ b.source := by
    rw [hsource, hsource']
    decide
  refine ⟨hids, a, ha, b, hb, hsource, hsource', fun heq => ?_⟩
  exact (hdirect a ha).2 hlang hnamed ((happart a ha b hb hne).1 heq).1

/-- Each of the files is the source with identifier zero of its compilation. -/
theorem reportCopies_collide_vyper :
    (vyperTokens.build tokensCompiler tokensFiles).1 = .ok () ∧
    (∀ col ∈ vyperTokens.collections tokensCompiler tokensFiles, ∀ p ∈ col.compiled,
      p.1.HasDistinctIds) ∧
    ∃ a ∈ vyperTokens.reportCopies tokensCompiler tokensFiles,
      ∃ b ∈ vyperTokens.reportCopies tokensCompiler tokensFiles, a.source ≠ b.source ∧
        Path.resolve tokensFiles.home a.target = Path.resolve tokensFiles.home b.target := by
  decide +kernel

end Tokens

end Config

end ContractModel
