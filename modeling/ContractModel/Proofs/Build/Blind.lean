import ContractModel.Proofs.Build.Links
import ContractModel.Proofs.Instrument.HiddenFiles

/-! # Builds that do not see hidden files

Instrumenting leaves files with hidden names behind. If neither the configuration nor the compiler
speaks of such names, then nothing that a build does depends on these files: started in states that
differ in them, it ends in the same way and in such states again.
-/

namespace ContractModel

open Run FileTree

open ContractModel.Path (Visible)

/-- The paths that the compiler is asked about. -/
def CompilerRequest.paths : CompilerRequest → List String
  | .version _ => []
  | .output _ input _ => input.sources.keys
  | .assembly _ path _ _ => [path]

/-- The paths that the compiler tells of. -/
def CompilerOutput.paths (o : CompilerOutput) : List String :=
  o.allSources.keys ++ o.allContracts.keys

/-- Asked about visible paths, the compiler tells of such paths only, and its answer depends neither
on hidden files nor on what it was asked before. -/
structure Compiler.Steady (compiler : Compiler) : Prop where
  answer : ∀ t t' earlier earlier' r, AgreeOutside t t' → (∀ path ∈ r.paths, Visible path) →
    compiler.answer t' earlier' r = compiler.answer t earlier r
  output : ∀ t earlier executable input allowed o, (∀ path ∈ input.sources.keys, Visible path) →
    compiler.answer t earlier (.output executable input allowed) = .ok o →
    ∀ path ∈ o.paths, Visible path

/-- What is known of a compilation whose paths are visible. -/
def Compilation.IsVisible (c : Compilation) : Prop :=
  Visible c.unitName ∧ ∀ path ∈ c.output.paths, Visible path

/-- The unit comes from a visible file, and its contracts are declared in such files. -/
def BuildUnit.IsVisible (u : BuildUnit) : Prop :=
  Visible u.originFile ∧ ∀ c ∈ u.contracts, Visible c.file

/-- All units come from visible files. -/
def BuildModel.IsVisible (m : BuildModel) : Prop :=
  ∀ key u, m.get? key = some u → Visible u.originFile

/-- The states differ in hidden files, and in what has no influence on the model any more. -/
structure Alike (s s' : BuildState) : Prop where
  index : s'.index = s.index
  model : s'.model = s.model
  book : s'.book = s.book
  linkedLibraries : s'.linkedLibraries = s.linkedLibraries
  files : AgreeOutside s.files s'.files
  current : Visible s.files.current
  isVisible : s.model.IsVisible

/-- What later files depend on decides whether states are alike, but for the files. -/
theorem Alike.of_core {s s' s'' : BuildState} (h : Alike s s') (hcore : core s'' = core s')
    (hagree : AgreeOutside s'.files s''.files) : Alike s s'' where
  index := (congrArg Prod.fst hcore).trans h.index
  model := (congrArg (fun c => c.2.1) hcore).trans h.model
  book := (congrArg (fun c => c.2.2.1) hcore).trans h.book
  linkedLibraries := (congrArg (fun c => c.2.2.2) hcore).trans h.linkedLibraries
  files := h.files.trans hagree
  current := h.current
  isVisible := h.isVisible

section Runs

variable {α β : Type} {s s' t t' : BuildState} {Q : α → Prop} {R : β → Prop}

/-- Both actions end in the same way, in alike states, and the result is as said. -/
def Match (x y : Build α) (Q : α → Prop) (s s' : BuildState) : Prop :=
  ∃ r t t', x.run.run s = (r, t) ∧ y.run.run s' = (r, t') ∧ Alike t t' ∧ ∀ a, r = .ok a → Q a

variable {x y : Build α} {f g : α → Build β}

theorem match_pure (h : Alike s s') {a : α} (ha : Q a) : Match (pure a) (pure a) Q s s' := by
  refine ⟨.ok a, s, s', rfl, rfl, h, ?_⟩
  rintro _ ⟨⟩
  exact ha

theorem match_throw (h : Alike s s') (e : Error) : Match (throw e) (throw e) Q s s' :=
  ⟨.error e, s, s', rfl, rfl, h, nofun⟩

theorem match_modify (change change' : BuildState → BuildState)
    (h : Alike (change s) (change' s')) :
    Match (modify change) (modify change') (fun _ => True) s s' :=
  ⟨.ok ⟨⟩, change s, change' s', rfl, rfl, h, fun _ _ => trivial⟩

theorem Match.get_bind {f g : BuildState → Build α} (h : Match (f s) (g s') Q s s') :
    Match (get >>= f) (get >>= g) Q s s' := h

theorem Match.bind_of_run (h : Match x y Q s s')
    (hnext : ∀ a t t', x.run.run s = (.ok a, t) → y.run.run s' = (.ok a, t') → Q a →
      Alike t t' → Match (f a) (g a) R t t') : Match (x >>= f) (y >>= g) R s s' := by
  obtain ⟨r, t, t', hx, hy, halike, hQ⟩ := h
  unfold Match
  rw [run_bind, run_bind, hx, hy]
  cases r with
  | error e => exact ⟨.error e, t, t', rfl, rfl, halike, nofun⟩
  | ok a => exact hnext a t t' hx hy (hQ a rfl) halike

theorem Match.bind (h : Match x y Q s s')
    (hnext : ∀ a t t', Q a → Alike t t' → Match (f a) (g a) R t t') :
    Match (x >>= f) (y >>= g) R s s' :=
  h.bind_of_run fun a t t' _ _ ha ht => hnext a t t' ha ht

/-- What only one of the actions does first must leave its state alike. -/
theorem Match.bind_right {x : Build β} {a : α} (hy : y.run.run s' = (.ok a, t'))
    (h : Match x (g a) R s t') : Match x (y >>= g) R s s' := by
  unfold Match
  rw [run_bind, hy]
  exact h

/-- Run in alike states, the action ends in the same way, in alike states again. -/
def Blind (x : Build α) (Q : α → Prop) : Prop := ∀ s s', Alike s s' → Match x x Q s s'

theorem blind_pure {a : α} (ha : Q a) : Blind (pure a) Q := fun _ _ h => match_pure h ha

theorem blind_throw (e : Error) : Blind (throw e : Build α) Q := fun _ _ h => match_throw h e

theorem blind_ofExcept {r : Except Error α} (h : ∀ a, r = .ok a → Q a) : Blind (ofExcept r) Q := by
  cases r with
  | error e => exact blind_throw e
  | ok a => exact blind_pure (h a rfl)

theorem blind_modify {change : BuildState → BuildState}
    (h : ∀ s s', Alike s s' → Alike (change s) (change s')) :
    Blind (modify change) fun _ => True := fun s s' hs => match_modify change change (h s s' hs)

theorem blind_get_bind {f : BuildState → Build α}
    (h : ∀ s s', Alike s s' → f s' = f s ∧ Blind (f s) Q) : Blind (get >>= f) Q := by
  intro s s' hs
  obtain ⟨hsame, hblind⟩ := h s s' hs
  refine Match.get_bind ?_
  rw [hsame]
  exact hblind s s' hs

theorem Blind.bind (hx : Blind x Q) (hf : ∀ a, Q a → Blind (f a) R) : Blind (x >>= f) R :=
  fun s s' hs => (hx s s' hs).bind fun a t t' ha ht => hf a ha t t' ht

theorem Blind.mapM {g : β → Build α} {bs : List β} (h : ∀ b ∈ bs, Blind (g b) Q) :
    Blind (bs.mapM g) fun as => ∀ a ∈ as, Q a := by
  induction bs with
  | nil => exact blind_pure nofun
  | cons b bs ih =>
    obtain ⟨hb, hbs⟩ := List.forall_mem_cons.1 h
    rw [List.mapM_cons]
    refine hb.bind fun a ha => (ih hbs).bind fun as has => blind_pure ?_
    exact List.forall_mem_cons.2 ⟨ha, has⟩

theorem Blind.forM {g : β → Build Unit} {bs : List β}
    (h : ∀ b ∈ bs, Blind (g b) fun _ => True) : Blind (bs.forM g) fun _ => True := by
  induction bs with
  | nil => exact blind_pure trivial
  | cons b bs ih =>
    obtain ⟨hb, hbs⟩ := List.forall_mem_cons.1 h
    exact hb.bind fun _ _ => ih hbs

theorem Blind.foldlM {g : α → β → Build α} {bs : List β}
    (h : ∀ b ∈ bs, ∀ a, Blind (g a b) fun _ => True) (a : α) :
    Blind (bs.foldlM g a) fun _ => True := by
  induction bs generalizing a with
  | nil => exact blind_pure trivial
  | cons b bs ih =>
    obtain ⟨hb, hbs⟩ := List.forall_mem_cons.1 h
    rw [List.foldlM_cons]
    exact (hb a).bind fun a _ => ih hbs a

end Runs

namespace Build

variable {α : Type} {Q : α → Prop} {setting : BuildSetting}

theorem blind_input {r : Except InputFault α} (h : ∀ a, r = .ok a → Q a) : Blind (input r) Q := by
  cases r with
  | error fault => exact blind_throw _
  | ok a => exact blind_pure (h a rfl)

theorem blind_tool {r : Except ToolFault α} (h : ∀ a, r = .ok a → Q a) : Blind (tool r) Q := by
  cases r with
  | error fault => exact blind_throw _
  | ok a => exact blind_pure (h a rfl)

theorem blind_setIndex (index : SyntaxIndex) :
    Blind (modify fun s => { s with index := index }) fun _ => True :=
  blind_modify fun _ _ h => { h with index := rfl }

theorem blind_modifyBook (change : AddressBook → AddressBook) :
    Blind (modify fun s => { s with book := change s.book }) fun _ => True :=
  blind_modify fun _ _ h => { h with book := by rw [h.book] }

theorem blind_query (q : Query α) : Blind (query q) fun _ => True := by
  refine blind_get_bind fun s s' h => ⟨by rw [h.index], ?_⟩
  exact (blind_setIndex _).bind fun _ _ => blind_ofExcept fun _ _ => trivial

theorem blind_request (hsteady : setting.compiler.Steady) {r : CompilerRequest}
    (hr : ∀ path ∈ r.paths, Visible path) {Q : r.Answer → Prop}
    (hQ : ∀ t earlier a, setting.compiler.answer t earlier r = .ok a → Q a) :
    Blind (request setting r) Q := by
  intro s s' h
  refine Match.get_bind ?_
  rw [hsteady.answer s.files s'.files s.requests s'.requests r h.files hr]
  refine Match.bind (Q := fun _ => True) ?_ fun _ t t' _ ht => blind_tool (hQ _ _) t t' ht
  exact match_modify (fun _ => _) (fun _ => _) { h with }

theorem blind_onFiles {failure : FileFault → Error} {change : FileTree → Except FileFault FileTree}
    (hchange : ∀ t t', AgreeOutside t t' → Visible t.current → SameOutcome (change t) (change t'))
    (hretains : ∀ t t', change t = .ok t' → t.Retains t') :
    Blind (onFiles failure change) fun _ => True := by
  intro s s' h
  have hsame := hchange s.files s'.files h.files h.current
  have hcurrent : ∀ t, change s.files = .ok t → Visible t.current := fun t ht =>
    (hretains _ t ht).current ▸ h.current
  refine Match.get_bind ?_
  revert hsame hcurrent
  generalize change s.files = r
  generalize change s'.files = r'
  rintro (hagree | fault) hcurrent
  · exact match_modify _ _ { h with files := hagree, current := hcurrent _ rfl }
  · exact match_throw h _

theorem blind_createDirectories (failure : FileFault → Error) {directory : String}
    (h : Visible directory) :
    Blind (onFiles failure fun files => files.createDirectories directory) fun _ => True :=
  blind_onFiles (fun _ _ hagree hcurrent => hagree.createDirectories hcurrent h)
    fun _ _ => retains_createDirectories

end Build

namespace Record

open Build

variable {setting : BuildSetting} {c : Compilation} {reportFile : String} {isPrimary : Bool}
  {file name : String}

theorem blind_linkBytecode (setting : BuildSetting) (code : Bytecode) :
    Blind (linkBytecode setting code) fun _ => True := by
  refine blind_get_bind fun s s' h => ⟨by rw [h.book], ?_⟩
  dsimp only
  split
  · refine (blind_modify fun s s' h => ?_).bind fun _ _ => blind_pure trivial
    exact { h with linkedLibraries := by rw [h.linkedLibraries] }
  · exact blind_throw _
  · exact blind_throw _

theorem blind_sourceRange (root file name : String) :
    Blind (sourceRange root file name) fun _ => True := by
  refine blind_get_bind fun s s' h => ⟨by rw [h.index], ?_⟩
  exact (blind_setIndex _).bind fun _ _ => blind_pure trivial

theorem blind_types (root file name : String) (lang : Language) :
    Blind (types root file name lang) fun _ => True := by
  unfold types
  cases lang with
  | solidity => exact blind_query _
  | vyper => exact blind_pure trivial

theorem mem_paths_of_contract? {o : CompilerOutput} {contract : CompiledContract}
    (h : o.contract? file name = some contract) : file ∈ o.paths := by
  obtain ⟨contracts, hfile, -⟩ := Option.bind_eq_some_iff.1 h
  refine List.mem_append_right _ (SortedMap.mem_keys_iff.2 ⟨contracts, ?_⟩)
  obtain ⟨m, hm, hfile⟩ := Option.bind_eq_some_iff.1 hfile
  rwa [CompilerOutput.allContracts, hm]

/-- A record is of a contract in the compiler's output. -/
theorem blind_ofContract (hpaths : ∀ path ∈ c.output.paths, Visible path) :
    Blind (ofContract setting c reportFile isPrimary file name) fun r => Visible r.file := by
  unfold ofContract
  split
  · exact blind_throw _
  · next contract hcontract =>
    have hfile : Visible file := hpaths file (mem_paths_of_contract? hcontract)
    extract_lets
    refine (blind_types _ _ _ _).bind fun types _ => blind_get_bind fun s s' h => ⟨by rw [h.index], ?_⟩
    extract_lets
    refine (blind_query _).bind fun functions _ => (blind_sourceRange _ _ _).bind fun source _ => ?_
    extract_lets
    refine (blind_linkBytecode _ _).bind fun bytecode _ => ?_
    extract_lets rest
    have hrest : ∀ u, Blind (rest u) fun r => Visible r.file := by
      intro u
      refine (blind_linkBytecode _ _).bind fun constructorBytecode _ => ?_
      refine blind_get_bind fun s s' h => ⟨by rw [h.index], ?_⟩
      refine (blind_ofExcept fun _ _ => trivial).bind fun immutables (_ : True) => ?_
      refine blind_get_bind fun s s' h => ⟨by rw [h.book], ?_⟩
      exact (blind_input fun _ _ => trivial).bind fun address (_ : True) => blind_pure hfile
    split
    · exact (blind_throw _).bind fun u (_ : True) => hrest u
    · exact hrest ()

end Record

namespace Collect

open Build

variable {setting : BuildSetting} {file configFile : String} {index : Nat} {isGenerated : Bool}
  {unitName : String} {output : CompilerOutput}

/-- The name of the units of a visible file is visible, also with more behind it. -/
theorem visible_unitName (h : Visible file) (index : Nat) (suffix : String)
    (hsuffix : '/' ∉ suffix.toList) :
    Visible (nameOf file ++ "_" ++ Text.decimal index ++ suffix) := by
  have hslash : '/' ∉ (Text.decimal index ++ suffix).toList := by
    rw [String.toList_append, List.mem_append, not_or]
    exact ⟨Path.slash_notMem_decimal index, hsuffix⟩
  rw [String.append_assoc]
  exact h.nameOf.append_underscore hslash

theorem blind_toolchain (hsteady : setting.compiler.Steady) (configFile : String) :
    Blind (toolchain setting configFile) fun _ => True :=
  (blind_request hsteady (List.forall_mem_nil _) fun _ _ _ _ => trivial).bind fun _ (_ : True) => blind_pure trivial

theorem blind_saveOutput (hconfig : Visible setting.config.configDir)
    (hname : Visible (unitName ++ ".standard.json")) :
    Blind (saveOutput setting unitName output) fun _ => True := by
  refine (blind_createDirectories _ hconfig).bind fun _ _ => ?_
  refine Blind.bind (Q := fun _ => True) ?_ fun _ _ => blind_modify fun _ _ h => { h with }
  exact blind_onFiles (fun _ _ hagree hcurrent => hagree.write hcurrent (hconfig.append hname) _)
    fun _ _ => retains_write

theorem blind_copySources (hconfig : Visible setting.config.configDir) (hname : Visible unitName)
    (hpaths : ∀ path ∈ output.paths, Visible path) (lang : Language) :
    Blind (copySources setting unitName lang output) fun _ => True := by
  unfold copySources
  extract_lets configDir directory
  have hdirectory : Visible directory := by
    cases lang with
    | solidity => exact hconfig.append hname
    | vyper => exact hconfig
  refine (blind_createDirectories _ hdirectory).bind fun _ _ => Blind.foldlM ?_ _
  rintro ⟨path, source⟩ hsource lists
  have hpath : Visible path :=
    hpaths path (List.mem_append_left _ (List.mem_map_of_mem (f := Prod.fst) hsource))
  refine Blind.bind (Q := fun _ => True) ?_ fun _ _ => blind_pure trivial
  exact blind_onFiles (fun _ _ hagree hcurrent =>
    hagree.copy hcurrent (hdirectory.append (hpath.reportCopy _)) hpath) fun _ _ => retains_copy

theorem keys_of_ofPath {files : FileTree} {lang : Language} {settings : Settings}
    {input : CompilerInput} (h : CompilerInput.ofPath files lang file settings = .ok input) :
    input.sources.keys = [file] := by
  unfold CompilerInput.ofPath at h
  cases lang with
  | solidity =>
    cases h
    rfl
  | vyper =>
    dsimp only at h
    split at h
    · cases h
      rfl
    · cases h

theorem blind_compile (hsteady : setting.compiler.Steady)
    (hconfig : Visible setting.config.configDir) (hfile : Visible file) (configFile : String)
    (index : Nat) (isGenerated : Bool) :
    Blind (compile setting file configFile index isGenerated) Compilation.IsVisible := by
  unfold compile
  extract_lets unitName
  refine (blind_toolchain hsteady configFile).bind fun tools _ => ?_
  refine (blind_tool fun _ _ => trivial).bind fun settings (_ : True) => ?_
  refine blind_get_bind fun s s' h => ⟨?_, ?_⟩
  · unfold CompilerInput.ofPath
    rw [h.files.readText h.current hfile]
  refine (blind_tool fun input hinput => keys_of_ofPath hinput).bind fun input hinput => ?_
  have hsources : ∀ path ∈ input.sources.keys, Visible path := by
    rw [hinput]
    exact fun path hpath => List.mem_singleton.1 hpath ▸ hfile
  have hrequest := blind_request hsteady (r := .output tools.executable input setting.config.path)
    hsources fun t earlier o => hsteady.output t earlier _ _ _ o hsources
  refine hrequest.bind fun output hpaths => ?_
  refine (blind_saveOutput hconfig (visible_unitName hfile index _ (by decide))).bind fun _ _ => ?_
  refine (blind_ofExcept fun _ _ => trivial).bind fun _ (_ : True) => ?_
  refine blind_get_bind fun s s' h => ⟨by rw [h.index], ?_⟩
  refine (blind_ofExcept fun _ _ => trivial).bind fun syntaxIndex (_ : True) => ?_
  refine (blind_setIndex _).bind fun _ _ => blind_pure ⟨?_, hpaths⟩
  simpa using visible_unitName hfile index "" (by decide)

theorem blind_takeLibraries : Blind takeLibraries fun _ => True := by
  intro s s' h
  refine Match.get_bind ?_
  rw [h.linkedLibraries]
  refine Match.bind (Q := fun _ => True) ?_ fun _ _ _ _ ht => match_pure ht trivial
  exact match_modify (fun _ => _) (fun _ => _)
    { h with linkedLibraries := rfl }

theorem blind_units (hsteady : setting.compiler.Steady)
    (hconfig : Visible setting.config.configDir) (hfile : Visible file) (configFile : String)
    (index : Nat) (isGenerated : Bool) :
    Blind (units setting file configFile index isGenerated) fun us => ∀ u ∈ us, u.IsVisible := by
  unfold units
  refine (blind_compile hsteady hconfig hfile configFile index isGenerated).bind fun c hc => ?_
  obtain ⟨hname, hpaths⟩ := hc
  extract_lets
  refine (blind_copySources hconfig hname hpaths _).bind fun lists _ => ?_
  extract_lets rest
  have hrest : ∀ u, Blind (rest u) fun us => ∀ u ∈ us, u.IsVisible := by
    intro u
    refine blind_get_bind fun s s' h => ⟨by rw [h.files.current], ?_⟩
    refine (blind_query _).bind fun contracts _ => ?_
    refine (blind_modifyBook _).bind fun _ _ => ?_
    split
    · exact blind_throw _
    · refine (Blind.mapM fun place _ => Record.blind_ofContract hpaths).bind fun records hrecords => ?_
      refine blind_takeLibraries.bind fun libraries _ => Blind.mapM fun contract _ => ?_
      refine blind_get_bind fun s s' h => ⟨by rw [h.book], ?_⟩
      refine (blind_input fun _ _ => trivial).bind fun address (_ : True) => ?_
      exact blind_pure ⟨hfile, hrecords⟩
  split
  · exact (blind_modifyBook _).bind fun u _ => hrest u
  · exact hrest ()

end Collect

namespace BuildModel

variable {m : BuildModel} {u : BuildUnit}

theorem IsVisible.add (h : m.IsVisible) (hu : Visible u.originFile) : (m.add u).IsVisible := by
  intro key v hv
  rw [BuildModel.add, SortedMap.get?_insert] at hv
  split at hv
  · cases hv
    exact hu
  · exact h key v hv

theorem IsVisible.modify (h : m.IsVisible) (key : String) {change : BuildUnit → BuildUnit}
    (hchange : ∀ u, (change u).unlinked = u.unlinked) :
    IsVisible (SortedMap.modify m key change) := by
  intro k v hv
  obtain ⟨u, hu, heq⟩ := exists_of_unlinked_eq (unlinked_modify m key hchange) hv
  obtain ⟨-, -, horigin, -⟩ := BuildUnit.eq_of_unlinked_eq heq
  rw [horigin]
  exact h k u hu

end BuildModel

namespace Build

variable {prototypes : SortedMap String (List String)} {u : BuildUnit} {found : List FoundUnit}

theorem blind_onModel {change : BuildModel → BuildModel}
    (h : ∀ m, BuildModel.IsVisible m → BuildModel.IsVisible (change m)) :
    Blind (onModel change) fun _ => True :=
  blind_modify fun _ _ hs => { hs with model := by rw [hs.model], isVisible := h _ hs.isVisible }

theorem blind_addLibraries (hu : u.IsVisible) : Blind (addLibraries u) fun _ => True := by
  refine Blind.forM fun address _ => ?_
  refine Blind.bind (blind_ofExcept fun c hc => (u.mem_and_address_of_library hc).1) fun c hc => ?_
  exact blind_onModel fun m hm => hm.add (hu.2 c hc)

theorem originFile_of_primary {v : BuildUnit} (h : u.primary = .ok v) :
    v.originFile = u.originFile := by
  obtain ⟨c, -, rfl⟩ := BuildUnit.primary_eq_ok_iff.1 h
  rfl

theorem blind_addUnit {f : FoundUnit} (hf : f.unit.IsVisible) (prototypes : List String) :
    Blind (addUnit prototypes f) fun _ => True := by
  unfold addUnit
  extract_lets u
  have hu : u.IsVisible := by
    refine ⟨hf.1, fun c hc => ?_⟩
    obtain ⟨d, hd, rfl⟩ := List.mem_map.1 hc
    exact hf.2 d hd
  refine (blind_addLibraries hu).bind fun _ _ => ?_
  refine Blind.bind (blind_ofExcept fun v hv => originFile_of_primary hv) fun v hv => ?_
  exact blind_onModel fun m hm => hm.add (hv ▸ hu.1)

theorem blind_addFound (hfound : ∀ f ∈ found, f.unit.IsVisible) :
    Blind (addFound prototypes found) fun _ => True :=
  Blind.forM fun f hf => blind_addUnit (hfound f hf) _

end Build

namespace Links

open Build

variable {setting : BuildSetting} {u : BuildUnit} {contract name key destination : String}

theorem blind_update (key : String) {change : BuildUnit → BuildUnit}
    (h : ∀ u, (change u).unlinked = u.unlinked) : Blind (update key change) fun _ => True :=
  blind_onModel fun _ hm => hm.modify key h

theorem blind_slotFromAssembly (hsteady : setting.compiler.Steady) (hu : Visible u.originFile) :
    Blind (slotFromAssembly setting u contract name) fun _ => True := by
  unfold slotFromAssembly
  extract_lets config configFile executable
  refine (blind_tool fun _ _ => trivial).bind fun arguments (_ : True) => ?_
  have hrequest := blind_request hsteady (Q := fun _ => True)
    (r := .assembly executable u.originFile (config.remappings ++ arguments) config.path)
    (List.forall_mem_singleton.2 hu) fun _ _ _ _ => trivial
  exact hrequest.bind fun assembly _ => blind_ofExcept fun _ _ => trivial

theorem blind_slotOf (hsteady : setting.compiler.Steady) (hu : Visible u.originFile) :
    Blind (slotOf setting u contract name) fun _ => True := by
  unfold slotOf
  split
  · refine (blind_ofExcept fun _ _ => trivial).bind fun slot (_ : True) => ?_
    split
    · exact blind_pure trivial
    · exact blind_slotFromAssembly hsteady hu
  · exact blind_slotFromAssembly hsteady hu

theorem blind_setSlot (hsteady : setting.compiler.Steady) (hu : Visible u.originFile)
    (d : LinkDirective) : Blind (setSlot setting key u d destination) fun _ => True := by
  unfold setSlot
  extract_lets rest
  have hrest : ∀ slot, Blind (rest slot) fun _ => True := fun slot => blind_update key fun u => rfl
  split
  · split
    · exact (blind_pure trivial).bind fun slot (_ : True) => hrest slot
    · exact (blind_throw _).bind fun slot (_ : True) => hrest slot
  · exact (blind_slotOf hsteady hu).bind fun slot _ => hrest slot

theorem blind_apply (hsteady : setting.compiler.Steady) (d : LinkDirective) :
    Blind (apply setting d) fun _ => True := by
  refine blind_get_bind fun s s' h => ⟨by rw [h.model], ?_⟩
  refine (blind_ofExcept fun _ _ => trivial).bind fun key (_ : True) => ?_
  split
  · exact blind_throw _
  · next u hu =>
    split
    · exact blind_setSlot hsteady (h.isVisible key u hu) d
    · exact blind_update _ fun u => u.unlinked_presetImmutable _ _ _
    · exact blind_throw _

theorem blind_applyStruct (d : LinkDirective) : Blind (applyStruct d) fun _ => True := by
  refine blind_get_bind fun s s' h => ⟨by rw [h.model], ?_⟩
  refine (blind_ofExcept fun _ _ => trivial).bind fun key (_ : True) => ?_
  split
  · split
    · exact blind_update _ fun u => rfl
    · exact blind_throw _
  · exact blind_update _ fun u => rfl

theorem blind_applyAll (hsteady : setting.compiler.Steady) :
    Blind (applyAll setting) fun _ => True := by
  refine (blind_ofExcept fun _ _ => trivial).bind fun ds (_ : True) => ?_
  refine (Blind.forM fun d _ => blind_apply hsteady d).bind fun _ _ => ?_
  refine (blind_ofExcept fun _ _ => trivial).bind fun ds (_ : True) => ?_
  exact Blind.forM fun d _ => blind_applyStruct d

end Links

end ContractModel
