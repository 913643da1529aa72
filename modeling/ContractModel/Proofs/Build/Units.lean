import ContractModel.Build.Run
import ContractModel.Proofs.Build.Closure
import ContractModel.Proofs.Effects
import ContractModel.Proofs.FileTree

/-! # The units of a file

Collecting leaves the model and the current directory alone. The units that come of it differ in
the contract alone, and the address book says the addresses of the contracts in them.
-/

namespace ContractModel

open Run

/-- The unit of another contract of the same compilation. -/
def BuildUnit.forContract (u : BuildUnit) (contract address : String) : BuildUnit :=
  { u with primaryContract := contract, address := address }

/-- The code of a contract, empty if the compiler gives none. -/
def CompiledContract.deployedCode (c : CompiledContract) : Bytecode :=
  (c.machine.getD .empty).deployedCode.getD .empty

namespace Build

variable {α τ : Type} {view : BuildState → τ}

theorem keeps_input (r : Except InputFault α) : Keeps view (input r) := by
  cases r <;> exact fun _ => rfl

theorem ensures_input {I : BuildState → Prop} {Q : α → Prop} {r : Except InputFault α}
    (h : ∀ a, r = .ok a → Q a) : Ensures I (input r) Q := by
  cases r with
  | error fault => exact ensures_throw _
  | ok a => exact ensures_pure (h a rfl)

theorem keeps_tool (r : Except ToolFault α) : Keeps view (tool r) := by
  cases r <;> exact fun _ => rfl

theorem keeps_query (h : ∀ s index, view { s with index := index } = view s) (q : Query α) :
    Keeps view (query q) := by
  intro s
  unfold query
  rw [run_get_bind]
  exact ((keeps_modify (fun s => h s _)).bind fun _ => keeps_ofExcept _) s

theorem keeps_request (h : ∀ s requests, view { s with requests := requests } = view s)
    (setting : BuildSetting) (r : CompilerRequest) : Keeps view (request setting r) := by
  intro s
  unfold request
  rw [run_get_bind, run_bind]
  exact (keeps_tool _ _).trans (h s _)

theorem keeps_onFiles {failure : FileFault → Error} {change : FileTree → Except FileFault FileTree}
    (h : ∀ s files, change s.files = .ok files → view { s with files := files } = view s) :
    Keeps view (onFiles failure change) := by
  intro s
  unfold onFiles
  rw [run_get_bind]
  split
  · next files hfiles => exact h s files hfiles
  · rfl

theorem run_onFiles (failure : FileFault → Error) (change : FileTree → Except FileFault FileTree)
    (s : BuildState) : (onFiles failure change).run.run s =
      match change s.files with
      | .ok files => (.ok (), { s with files := files })
      | .error fault => (.error (failure fault), s) := by
  unfold onFiles
  rw [run_get_bind]
  cases change s.files <;> rfl

theorem onFiles_eq_ok_iff {failure : FileFault → Error}
    {change : FileTree → Except FileFault FileTree} {u : Unit} {s s' : BuildState} :
    (onFiles failure change).run.run s = (.ok u, s') ↔
      ∃ files, change s.files = .ok files ∧ s' = { s with files := files } := by
  rw [run_onFiles]
  cases change s.files with
  | error fault =>
    constructor
    · rintro ⟨⟩
    · rintro ⟨_, ⟨⟩, _⟩
  | ok files =>
    constructor
    · rintro ⟨⟩
      exact ⟨files, rfl, rfl⟩
    · rintro ⟨_, ⟨⟩, rfl⟩
      rfl

theorem preserves_onFiles_bind {I : BuildState → Prop} {failure : FileFault → Error}
    {change : FileTree → Except FileFault FileTree} {f : Unit → Build α}
    (h : ∀ s files, I s → change s.files = .ok files →
      I ((f ()).run.run { s with files := files }).2) :
    Preserves I (onFiles failure change >>= f) := by
  intro s hs
  rw [run_bind, run_onFiles]
  cases hfiles : change s.files with
  | error fault => exact hs
  | ok files => exact h s files hs hfiles

theorem preserves_onFiles {I : BuildState → Prop} {failure : FileFault → Error}
    {change : FileTree → Except FileFault FileTree}
    (h : ∀ s files, I s → change s.files = .ok files → I { s with files := files }) :
    Preserves I (onFiles failure change) := by
  intro s hs
  rw [run_onFiles]
  cases hfiles : change s.files with
  | error fault => exact hs
  | ok files => exact h s files hs hfiles

/-- What is seen of a state depends neither on which files there are nor on what was noted about
them, nor on what was asked. -/
structure IgnoresFiles (view : BuildState → τ) : Prop where
  files : ∀ (s : BuildState) files, s.files.Retains files → view { s with files := files } = view s
  requests : ∀ (s : BuildState) requests, view { s with requests := requests } = view s
  outputs : ∀ (s : BuildState) outputs, view { s with outputs := outputs } = view s
  copies : ∀ (s : BuildState) copies, view { s with copies := copies } = view s

theorem IgnoresFiles.keeps_createDirectories (h : IgnoresFiles view)
    (failure : FileFault → Error) (directory : String) :
    Keeps view (onFiles failure fun files => files.createDirectories directory) :=
  keeps_onFiles fun s files hfiles => h.files s files (FileTree.retains_createDirectories hfiles)

end Build

namespace Record

variable {τ : Type} {view : BuildState → τ} {setting : BuildSetting} {c : Compilation}
  {reportFile : String} {isPrimary : Bool} {file name : String} {r : ContractRecord}
  {s s' : BuildState}

open Build

theorem keeps_linkBytecode
    (hlinked : ∀ s linked, view { s with linkedLibraries := linked } = view s)
    (setting : BuildSetting) (code : Bytecode) : Keeps view (linkBytecode setting code) := by
  unfold linkBytecode
  refine keeps_get.bind fun s => ?_
  dsimp only
  split
  · exact (keeps_modify fun s => hlinked s _).bind fun _ => keeps_pure _
  · exact keeps_throw _
  · exact keeps_throw _

theorem keeps_sourceRange (hindex : ∀ s index, view { s with index := index } = view s)
    (root file name : String) : Keeps view (sourceRange root file name) :=
  keeps_get.bind fun _ => (keeps_modify fun s => hindex s _).bind fun _ => keeps_pure _

theorem keeps_types (hindex : ∀ s index, view { s with index := index } = view s)
    (root file name : String) (lang : Language) : Keeps view (types root file name lang) := by
  unfold types
  cases lang with
  | solidity => exact keeps_query hindex _
  | vyper => exact keeps_pure []

theorem keeps_ofContract (hindex : ∀ s index, view { s with index := index } = view s)
    (hlinked : ∀ s linked, view { s with linkedLibraries := linked } = view s) :
    Keeps view (ofContract setting c reportFile isPrimary file name) := by
  unfold ofContract
  split
  · exact keeps_throw _
  · extract_lets
    refine (keeps_types hindex _ _ _ _).bind fun types => keeps_get.bind fun _ => ?_
    extract_lets
    refine (keeps_query hindex _).bind fun functions => ?_
    refine (keeps_sourceRange hindex _ _ _).bind fun source => ?_
    extract_lets
    refine (keeps_linkBytecode hlinked _ _).bind fun bytecode => ?_
    extract_lets rest
    have hrest : ∀ u, Keeps view (rest u) := by
      intro u
      refine (keeps_linkBytecode hlinked _ _).bind fun constructorBytecode => ?_
      refine keeps_get.bind fun _ => (keeps_ofExcept _).bind fun immutables => ?_
      exact keeps_get.bind fun _ => (keeps_input _).bind fun address => keeps_pure _
    split
    · exact (keeps_throw _).bind hrest
    · exact hrest ()

/-- The bytecode with the addresses that the book has for the libraries. -/
theorem ensures_linkBytecode (book : AddressBook) (code : Bytecode) :
    Ensures (fun s => s.book = book) (linkBytecode setting code) fun bytecode => ∃ linked,
      Linking.link (book.find setting.config.address) code.object
        (code.linkReferences.getD ∅) = .ok linked ∧ bytecode = linked.bytecode := by
  unfold linkBytecode
  refine ensures_get.bind ?_
  rintro s rfl
  dsimp only
  split
  · next linked hlink =>
    have hlinked : Keeps BuildState.book (modify fun s : BuildState =>
        { s with linkedLibraries := s.linkedLibraries ++ linked.libraryAddresses } : Build _) :=
      keeps_modify fun _ => rfl
    exact (hlinked.ensures s.book).bind fun _ _ => ensures_pure ⟨linked, hlink, rfl⟩
  · exact ensures_throw _
  · exact ensures_throw _

/-- What a record says of a contract in the output: the address that the book has for it, and the
code with the addresses of the libraries. A primary contract has some, before it is normalized. -/
structure Describes (setting : BuildSetting) (book : AddressBook) (c : Compilation)
    (isPrimary : Bool) (place contract : String) (r : ContractRecord) : Prop where
  file : r.file = place
  name : r.name = contract
  lang : r.lang = c.toolchain.lang
  address : book.find setting.config.address place contract = .ok r.address
  code : ∃ compiled linked, c.output.contract? place contract = some compiled ∧
    Linking.link (book.find setting.config.address) compiled.deployedCode.object
      (compiled.deployedCode.linkReferences.getD ∅) = .ok linked ∧
    r.bytecode = r.lang.normalizeBytecode linked.bytecode ∧
    (isPrimary → linked.bytecode ≠ "")

theorem ensures_ofContract (book : AddressBook) :
    Ensures (fun s => s.book = book) (ofContract setting c reportFile isPrimary file name)
      (Describes setting book c isPrimary file name) := by
  have hindex : ∀ (s : BuildState) index, { s with index := index }.book = s.book := fun _ _ => rfl
  have hlinked : ∀ (s : BuildState) linked, { s with linkedLibraries := linked }.book = s.book :=
    fun _ _ => rfl
  unfold ofContract
  split
  · exact ensures_throw _
  · next contract hcontract =>
    extract_lets
    refine ((keeps_types hindex _ _ _ _).ensures book).bind fun types _ => ?_
    refine ensures_get.bind fun _ _ => ?_
    extract_lets
    refine ((keeps_query hindex _).ensures book).bind fun functions _ => ?_
    refine ((keeps_sourceRange hindex _ _ _).ensures book).bind fun source _ => ?_
    extract_lets
    refine (ensures_linkBytecode book _).bind fun bytecode hbytecode => ?_
    obtain ⟨linked, hlink, rfl⟩ := hbytecode
    extract_lets rest
    have hrest (hprimary : isPrimary → linked.bytecode ≠ "") (u : PUnit) :
        Ensures (fun s => s.book = book) (rest u)
          (Describes setting book c isPrimary file name) := by
      refine ((keeps_linkBytecode hlinked _ _).ensures book).bind fun constructorBytecode _ => ?_
      refine ensures_get.bind fun _ _ => ?_
      refine ((keeps_ofExcept _).ensures book).bind fun immutables _ => ensures_get.bind ?_
      rintro s rfl
      refine (ensures_input fun address haddress => haddress).bind fun address haddress => ?_
      exact ensures_pure ⟨rfl, rfl, rfl, haddress, contract, linked, hcontract, hlink, rfl, hprimary⟩
    split
    · refine Ensures.bind (Q := fun _ => False) (ensures_throw _) ?_
      rintro _ ⟨⟩
    · next hcode =>
      refine hrest (fun hprimary hempty => hcode ?_) ()
      rw [hprimary, hempty]
      rfl

end Record

namespace Collect

variable {τ : Type} {view : BuildState → τ} {setting : BuildSetting} {file configFile : String}
  {index : Nat} {isGenerated : Bool} {us : List BuildUnit} {s s' : BuildState}

open Build

theorem keeps_toolchain (h : IgnoresFiles view) (configFile : String) :
    Keeps view (toolchain setting configFile) :=
  (keeps_request h.requests setting _).bind fun _ => keeps_pure _

theorem keeps_saveOutput (h : IgnoresFiles view) (unitName : String) (output : CompilerOutput) :
    Keeps view (saveOutput setting unitName output) := by
  refine (h.keeps_createDirectories _ _).bind fun _ => Keeps.bind ?_ fun _ => ?_
  · exact keeps_onFiles fun s files hfiles => h.files s files (FileTree.retains_write hfiles)
  · exact keeps_modify fun s => h.outputs s _

theorem keeps_copySources (h : IgnoresFiles view) (unitName : String) (lang : Language)
    (output : CompilerOutput) : Keeps view (copySources setting unitName lang output) := by
  refine (h.keeps_createDirectories _ _).bind fun _ => Keeps.foldlM (fun lists source => ?_) _ _
  refine Keeps.bind ?_ fun _ => keeps_pure _
  exact keeps_onFiles fun s files hfiles => h.files s files (FileTree.retains_copy hfiles)

theorem keeps_compile (h : IgnoresFiles view)
    (hindex : ∀ s index, view { s with index := index } = view s) (file configFile : String)
    (index : Nat) (isGenerated : Bool) :
    Keeps view (compile setting file configFile index isGenerated) := by
  refine (keeps_toolchain h configFile).bind fun tools => (keeps_tool _).bind fun settings => ?_
  refine keeps_get.bind fun _ => (keeps_tool _).bind fun input => ?_
  refine (keeps_request h.requests setting _).bind fun output => ?_
  refine (keeps_saveOutput h _ output).bind fun _ => (keeps_ofExcept _).bind fun _ => ?_
  refine keeps_get.bind fun _ => (keeps_ofExcept _).bind fun syntaxIndex => ?_
  exact (keeps_modify fun s => hindex s syntaxIndex).bind fun _ => keeps_pure _

theorem compile_eq_ok {c : Compilation}
    (h : (compile setting file configFile index isGenerated).run.run s = (.ok c, s')) :
    c.file = file ∧ c.unitName = nameOf file ++ "_" ++ Text.decimal index ∧
      c.toolchain.lang = Language.ofPath configFile := by
  obtain ⟨tools, t, htools, h⟩ := bind_eq_ok_iff.1 h
  obtain ⟨version, t', -, htools⟩ := bind_eq_ok_iff.1 htools
  obtain ⟨rfl, rfl⟩ := pure_eq_ok_iff.1 htools
  obtain ⟨settings, t, -, h⟩ := bind_eq_ok_iff.1 h
  rw [run_get_bind] at h
  obtain ⟨input, t, -, h⟩ := bind_eq_ok_iff.1 h
  obtain ⟨output, t, -, h⟩ := bind_eq_ok_iff.1 h
  obtain ⟨_, t, -, h⟩ := bind_eq_ok_iff.1 h
  obtain ⟨_, t, -, h⟩ := bind_eq_ok_iff.1 h
  rw [run_get_bind] at h
  obtain ⟨_, t, -, h⟩ := bind_eq_ok_iff.1 h
  obtain ⟨_, t, -, h⟩ := bind_eq_ok_iff.1 h
  obtain ⟨rfl, -⟩ := pure_eq_ok_iff.1 h
  exact ⟨rfl, rfl, rfl⟩

theorem keeps_takeLibraries
    (hlinked : ∀ s linked, view { s with linkedLibraries := linked } = view s) :
    Keeps view takeLibraries := fun s => hlinked s []

/-- Behind the compilation and the copies for the report, collecting changes the index, the book and
the libraries alone. -/
theorem exists_units_eq_bind (setting : BuildSetting) (file configFile : String) (index : Nat)
    (isGenerated : Bool) : ∃ rest : Compilation → SourceLists → Build (List BuildUnit),
    units setting file configFile index isGenerated = (do
      let c ← compile setting file configFile index isGenerated
      rest c (← copySources setting c.unitName c.toolchain.lang c.output)) ∧
    ∀ (τ : Type) (view : BuildState → τ), (∀ s index, view { s with index := index } = view s) →
      (∀ s linked, view { s with linkedLibraries := linked } = view s) →
      (∀ s book, view { s with book := book } = view s) → ∀ c lists, Keeps view (rest c lists) := by
  refine ⟨_, rfl, fun τ view hindex hlinked hbook c lists => ?_⟩
  extract_lets configured rest
  have hrest : ∀ u, Keeps view (rest u) := by
    intro u
    refine keeps_get.bind fun _ => (keeps_query hindex _).bind fun contracts => ?_
    refine (keeps_modify fun s => hbook s _).bind fun _ => ?_
    split
    · exact keeps_throw _
    · refine (Keeps.mapM (fun place => Record.keeps_ofContract hindex hlinked) _).bind ?_
      refine fun records => (keeps_takeLibraries hlinked).bind fun libraries => ?_
      refine Keeps.mapM (fun contract => ?_) _
      exact keeps_get.bind fun _ => (keeps_input _).bind fun address => keeps_pure _
  split
  · exact (keeps_modify fun s => hbook s _).bind hrest
  · exact hrest ()

theorem keeps_units (h : IgnoresFiles view)
    (hindex : ∀ s index, view { s with index := index } = view s)
    (hlinked : ∀ s linked, view { s with linkedLibraries := linked } = view s)
    (hbook : ∀ s book, view { s with book := book } = view s) (file configFile : String)
    (index : Nat) (isGenerated : Bool) :
    Keeps view (units setting file configFile index isGenerated) := by
  obtain ⟨rest, hunits, hrest⟩ :=
    exists_units_eq_bind setting file configFile index isGenerated
  rw [hunits]
  refine (keeps_compile h hindex file configFile index isGenerated).bind fun c => ?_
  exact (keeps_copySources h _ _ _).bind (hrest τ view hindex hlinked hbook c)

/-- The units of a file have everything in common but the contract and its address. The book has
the addresses of the units and of their contracts. -/
structure UnitsOf (overrides : SortedMap String String) (book : AddressBook) (file : String)
    (contracts : List String) (base : BuildUnit) (us : List BuildUnit) : Prop where
  origin : base.originFile = file
  records : ∀ c ∈ base.contracts, book.find overrides c.file c.name = .ok c.address
  libraries : base.libraryAddresses.Nodup
  units : List.Forall₂ (fun contract u => ∃ address,
    book.find overrides file contract = .ok address ∧ u = base.forContract contract address)
    contracts us

theorem nodup_eraseDups (ss : List String) : ss.eraseDups.Nodup := by
  induction h : ss.length using Nat.strong_induction_on generalizing ss with
  | _ n ih =>
    cases ss with
    | nil => exact .nil
    | cons s ss =>
      rw [List.eraseDups_cons, List.nodup_cons]
      refine ⟨by simp, ih _ ?_ _ rfl⟩
      have hle := List.length_filter_le (fun b => !b == s) ss
      rw [List.length_cons] at h
      omega

theorem ensures_takeLibraries (book : AddressBook) :
    Ensures (fun s => s.book = book) takeLibraries List.Nodup := by
  rintro s _ s' hs ⟨⟩
  exact ⟨hs, nodup_eraseDups _⟩

/-- Records the contracts found; those configured for the file and declared in it are primary. -/
def recordAll (setting : BuildSetting) (c : Compilation) (reportFile file configFile : String)
    (found : SortedMap String (List String)) : Build (List ContractRecord) :=
  (found.entries.flatMap fun (place, names) => names.map fun name => (place, name)).mapM
    fun (place, name) => Record.ofContract setting c reportFile
      (place == file && (setting.config.contractsOf configFile).contains name) place name

/-- Each contract gets a unit with the address that the book has for it. -/
theorem ensures_forContracts (book : AddressBook) (file : String) (base : BuildUnit)
    (contracts : List String) :
    Ensures (fun s => s.book = book)
      (contracts.mapM fun contract => do
        let address ← Build.input ((← get).book.find setting.config.address file contract)
        return base.forContract contract address)
      (List.Forall₂ (fun contract u => ∃ address,
        book.find setting.config.address file contract = .ok address ∧
          u = base.forContract contract address) contracts) := by
  refine Ensures.mapM (fun contract => ensures_get.bind ?_) contracts
  rintro s rfl
  exact (ensures_input fun address haddress => haddress).bind
    fun address haddress => ensures_pure ⟨address, haddress, rfl⟩

/-- The file is compiled, the contracts found get addresses and are recorded, and each configured
one gets a unit with all of the records. -/
theorem exists_records_of_units
    (h : (units setting file configFile index isGenerated).run.run s = (.ok us, s')) :
    ∃ (c : Compilation) (t : BuildState) (found : SortedMap String (List String))
      (reportFile : String) (u v : BuildState) (base : BuildUnit),
      (compile setting file configFile index isGenerated).run.run s = (.ok c, t) ∧
      u.book = assignAddresses found (if file = configFile then s.book.clear else s.book) ∧
      (recordAll setting c reportFile file configFile found).run.run u = (.ok base.contracts, v) ∧
      s'.book = u.book ∧ base.originFile = file ∧ base.libraryAddresses.Nodup ∧
      List.Forall₂ (fun contract u => ∃ address,
        s'.book.find setting.config.address file contract = .ok address ∧
          u = base.forContract contract address) (setting.config.contractsOf configFile) us := by
  have hignores : IgnoresFiles BuildState.book :=
    ⟨fun _ _ _ => rfl, fun _ _ => rfl, fun _ _ => rfl, fun _ _ => rfl⟩
  unfold units at h
  obtain ⟨c, t, hcompile, h⟩ := bind_eq_ok_iff.1 h
  extract_lets lang configured at h
  obtain ⟨lists, t', hcopy, h⟩ := bind_eq_ok_iff.1 h
  have ht : t'.book = s.book := ((keeps_copySources hignores _ _ _).eq hcopy).trans
    ((keeps_compile hignores (fun _ _ => rfl) _ _ _ _).eq hcompile)
  extract_lets rest at h
  obtain ⟨u, hu, h⟩ : ∃ u : BuildState,
      u.book = (if file = configFile then s.book.clear else s.book) ∧
        (rest ()).run.run u = (.ok us, s') := by
    split at h
    · next heq =>
      rw [run_modify_bind] at h
      exact ⟨_, by rw [if_pos heq, ← ht], h⟩
    · next hne => exact ⟨t', by rw [if_neg hne, ht], h⟩
  rw [← hu]
  dsimp only [rest] at h
  rw [run_get_bind] at h
  obtain ⟨found, v, hfound, h⟩ := bind_eq_ok_iff.1 h
  have hv : v.book = u.book := (keeps_query (fun _ _ => rfl) _).eq hfound
  rw [run_modify_bind, ← hv] at *
  split at h
  · cases h
  next reportFile hreport =>
  obtain ⟨records, w, hrecords, h⟩ := bind_eq_ok_iff.1 h
  have hw : w.book = assignAddresses found v.book :=
    (Keeps.mapM (fun p => Record.keeps_ofContract (fun _ _ => rfl) (fun _ _ => rfl)) _).eq hrecords
  obtain ⟨libraries, w', hlibraries, h⟩ := bind_eq_ok_iff.1 h
  obtain ⟨hw', hnodup⟩ := ensures_takeLibraries _ _ _ _ hw hlibraries
  let base : BuildUnit :=
    { primaryContract := "", address := "", originFile := file, sources := lists.sources,
      reportSources := lists.report, name := c.unitName, contracts := records,
      libraryAddresses := libraries, generatedWith := setting.config.generatedWith,
      state := ∅, structLinks := ∅, legacyStructLinks := ∅, prototypes := [],
      toolchain := c.toolchain }
  obtain ⟨hbook, hunits⟩ := ensures_forContracts (assignAddresses found v.book) file base configured
    _ _ _ hw' h
  exact ⟨c, t, found, reportFile, _, w, base, hcompile, rfl, hrecords, hbook, rfl, hnodup,
    hbook ▸ hunits⟩

/-- The book has an address for each contract that was found, behind what it knew of the file. -/
theorem units_eq_ok (h : (units setting file configFile index isGenerated).run.run s = (.ok us, s')) :
    ∃ found base,
      s'.book = assignAddresses found (if file = configFile then s.book.clear else s.book) ∧
      UnitsOf setting.config.address s'.book file (setting.config.contractsOf configFile) base us := by
  obtain ⟨c, t, found, reportFile, u, v, base, -, hu, hrecords, hbook, horigin, hlibraries, hunits⟩ :=
    exists_records_of_units h
  refine ⟨found, base, hbook.trans hu, horigin, fun r hr => ?_, hlibraries, hunits⟩
  obtain ⟨-, hall⟩ :=
    Ensures.mapM (fun p => Record.ensures_ofContract u.book) _ _ _ _ rfl hrecords
  obtain ⟨p, -, hp⟩ := exists_of_mem_forall₂ hall.flip hr
  rw [hp.file, hp.name, hbook, hp.address]

end Collect

section Written

/-! Compilations of contracts without functions, for closed runs. -/

def Node.json (n : Node) : Json := .object (("nodeType", .string n.kind) :: n.fields)

/-- A source with its identifier and the tree of the nodes. -/
def CompiledSource.ofNodes (id : Nat) (nodes : List Node) : CompiledSource where
  id := id
  tree := some (.object [("id", .ofNat (100 + id)), ("nodeType", "SourceUnit"),
    ("nodes", .array (nodes.map Node.json))])

def CompiledContract.ofCode (object : String) (references : Option LinkReferences) :
    CompiledContract :=
  ⟨[], none, some ⟨none, none, some ⟨object, none, references, none⟩, none⟩⟩

/-- What the compiler answers for files with the nodes of their trees and their contracts. -/
def CompilerOutput.ofFiles
    (files : List (String × List Node × List (String × CompiledContract))) : CompilerOutput where
  contracts := some (SortedMap.ofList (files.map fun (file, _, contracts) =>
    (file, SortedMap.ofList contracts)))
  sources := some (SortedMap.ofList (files.zipIdx.map fun ((file, nodes, _), id) =>
    (file, CompiledSource.ofNodes id nodes)))
  errors := none

/-- A compiler that answers by the file that is compiled. -/
def Compiler.ofOutputs (outputs : List (String × CompilerOutput)) : Compiler where
  answer _ _
    | .version _ => .ok ⟨0, 8, 0⟩
    | .output executable input _ =>
      match input.sources.keys.findSome? fun file => outputs.lookup file with
      | some output => .ok output
      | none => .error (.unreadableOutput executable)
    | .assembly executable _ _ _ => .error (.unreadableOutput executable)

end Written

end ContractModel
