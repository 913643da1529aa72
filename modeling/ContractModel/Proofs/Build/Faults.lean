import ContractModel.Proofs.Build.Units

/-! # Who refuses generated code

Only the check of the compiler's messages refuses generated code. Whatever else goes wrong in
collecting the units of a file is another fault, so that a refusal leaves the index, the address
book and the addresses of libraries as they were.
-/

namespace ContractModel

open Run

/-- The fault is not that the compiler refused generated code. -/
def Error.NotGenerated (e : Error) : Prop := e.isGenerated = false

variable {ts : Trees} {root : String} {n : Node} {i : Int}

section Types

theorem faultIs_fileOf : FaultIs Error.NotGenerated (ts.fileOf root i) := by
  unfold Trees.fileOf
  split
  · exact faultIs_ok _
  · exact faultIs_error rfl

theorem faultIs_definition : FaultIs Error.NotGenerated (ts.definition root i) := by
  unfold Trees.definition
  split
  · exact faultIs_ok _
  · exact faultIs_error rfl

theorem faultIs_resolve {follow : Int → Except Error SourceType}
    (h : ∀ i, FaultIs Error.NotGenerated (follow i)) (t : TypeName) :
    FaultIs Error.NotGenerated (t.resolve follow) := by
  induction t with
  | primitive name s => exact faultIs_ok _
  | declared reference => exact h reference
  | mapping s d c contract reference ihd ihc =>
    exact ihd.bind fun _ => ihc.bind fun _ => faultIs_ok _
  | array s e length contract reference ih => exact ih.bind fun _ => faultIs_ok _
  | malformed fault => exact faultIs_error rfl

theorem faultIs_canonicalName : FaultIs Error.NotGenerated (SourceType.canonicalName n) := by
  unfold SourceType.canonicalName
  split
  · exact faultIs_ok _
  · exact faultIs_error rfl

theorem faultIs_memberOf {resolve : Node → Except Error SourceType}
    (h : ∀ n, FaultIs Error.NotGenerated (resolve n)) (m : Node) :
    FaultIs Error.NotGenerated (SourceType.memberOf resolve m) := by
  unfold SourceType.memberOf
  split
  · exact faultIs_error rfl
  · exact (h _).bind fun _ => faultIs_ok _

theorem faultIs_define {resolve : List Int → Node → Except Error SourceType}
    (h : ∀ enclosing n, FaultIs Error.NotGenerated (resolve enclosing n)) (enclosing : List Int)
    (n : Node) : FaultIs Error.NotGenerated (SourceType.define resolve enclosing n) := by
  unfold SourceType.define
  split
  · exact faultIs_canonicalName.bind fun _ => faultIs_ok _
  split
  · refine faultIs_canonicalName.bind fun canonical => ?_
    split
    · exact faultIs_ok _
    · exact (FaultIs.mapM (faultIs_memberOf (h _)) _).bind fun _ => faultIs_ok _
  split
  · refine faultIs_canonicalName.bind fun canonical => ?_
    split
    · exact faultIs_error rfl
    · exact (h _ _).bind fun _ => faultIs_ok _
  split
  · exact faultIs_ok _
  · exact faultIs_error rfl

theorem faultIs_ofDefinitionWithin {lookup : Int → Except Error Node}
    (h : ∀ i, FaultIs Error.NotGenerated (lookup i)) (steps : Nat) (enclosing : List Int)
    (n : Node) :
    FaultIs Error.NotGenerated (SourceType.ofDefinitionWithin lookup steps enclosing n) := by
  induction steps generalizing enclosing n with
  | zero => exact faultIs_error rfl
  | succ steps ih =>
    refine faultIs_define (fun enclosing typeName => faultIs_resolve (fun i => ?_) _) enclosing n
    exact (h i).bind fun n => ih enclosing n

theorem faultIs_ofDefinition : FaultIs Error.NotGenerated (SourceType.ofDefinition ts root n) :=
  faultIs_ofDefinitionWithin (fun _ => faultIs_definition) _ _ _

theorem faultIs_ofTypeName : FaultIs Error.NotGenerated (SourceType.ofTypeName ts root n) :=
  faultIs_resolve (fun _ => faultIs_definition.bind fun _ => faultIs_ofDefinition) _

theorem faultIs_dimensionsOfNode (n : Node) : FaultIs Error.NotGenerated (Dimensions.ofNode n) := by
  fun_induction Dimensions.ofNode n with
  | case1 => exact faultIs_error rfl
  | case2 n _ element _ ih => exact ih.bind fun _ => faultIs_ok _
  | case3 => exact faultIs_ok _

theorem faultIs_ofTypeString (s : String) : FaultIs Error.NotGenerated (Dimensions.ofTypeString s) := by
  unfold Dimensions.ofTypeString
  split
  · exact faultIs_ok _
  · exact faultIs_error rfl

theorem faultIs_declaredOf : FaultIs Error.NotGenerated
    (ParameterType.declaredOf (ts.definition root) n) := by
  unfold ParameterType.declaredOf
  split
  · split
    · exact faultIs_error rfl
    · exact faultIs_definition.bind fun _ => faultIs_ok _
  · exact faultIs_ok _

theorem faultIs_membersOf {member : List Int → Node → Except Error ParameterType}
    (h : ∀ enclosing n, FaultIs Error.NotGenerated (member enclosing n)) (enclosing : List Int)
    (declared : Option ParameterType.Declared) :
    FaultIs Error.NotGenerated (ParameterType.membersOf member enclosing declared) := by
  unfold ParameterType.membersOf
  split
  · exact faultIs_ok _
  · split
    · exact FaultIs.mapM (h _) _
    · exact faultIs_ok _

theorem faultIs_typeNameOf : FaultIs Error.NotGenerated (ParameterType.typeNameOf n) := by
  unfold ParameterType.typeNameOf
  split
  · exact faultIs_error rfl
  · exact faultIs_ok _

theorem faultIs_typeStringOf : FaultIs Error.NotGenerated (ParameterType.typeStringOf n) := by
  unfold ParameterType.typeStringOf
  split
  · exact faultIs_error rfl
  · exact faultIs_ok _

theorem faultIs_ofParameterWithin (inLibrary : Bool) (steps : Nat) (enclosing : List Int)
    (n : Node) : FaultIs Error.NotGenerated
      (ParameterType.ofParameterWithin ts root inLibrary steps enclosing n) := by
  induction steps generalizing enclosing n with
  | zero => exact faultIs_error rfl
  | succ steps ih =>
    refine faultIs_typeNameOf.bind fun typeName => ?_
    refine (faultIs_dimensionsOfNode typeName).bind fun ⟨dimensions, base⟩ => ?_
    refine faultIs_typeStringOf.bind fun typeString => faultIs_declaredOf.bind fun declared => ?_
    refine faultIs_ofTypeName.bind fun sourceType => ?_
    exact (faultIs_membersOf ih _ _).bind fun components => faultIs_ok _

theorem faultIs_withInternalType (types : List SourceType) (t : ParameterType)
    (abiType internalType : String) : FaultIs Error.NotGenerated
      (ParameterType.withInternalType types t abiType internalType) := by
  refine (faultIs_ofTypeString internalType).bind fun ⟨dimensions, base⟩ => ?_
  dsimp only
  split
  · exact faultIs_ok _
  · exact faultIs_error rfl

mutual

theorem faultIs_ofInterface (types : List SourceType) (p : InterfaceParameter) :
    FaultIs Error.NotGenerated (ParameterType.ofInterface types p) := by
  obtain ⟨name, typeString, internalType, components⟩ := p
  rw [ParameterType.ofInterface]
  refine (faultIs_ofInterfaceComponents types components).bind fun components => ?_
  refine (faultIs_ofTypeString typeString).bind fun ⟨dimensions, base⟩ => ?_
  dsimp only
  split
  · exact faultIs_ok _
  · exact faultIs_withInternalType _ _ _ _

theorem faultIs_ofInterfaceComponents (types : List SourceType)
    (components : Option (List InterfaceParameter)) :
    FaultIs Error.NotGenerated (ParameterType.ofInterfaceComponents types components) := by
  cases components with
  | none => exact faultIs_ok _
  | some ps =>
    rw [ParameterType.ofInterfaceComponents]
    exact faultIs_ofInterfaceList types ps

theorem faultIs_ofInterfaceList (types : List SourceType) (ps : List InterfaceParameter) :
    FaultIs Error.NotGenerated (ParameterType.ofInterfaceList types ps) := by
  cases ps with
  | nil => exact faultIs_ok _
  | cons p ps =>
    rw [ParameterType.ofInterfaceList]
    refine (faultIs_ofInterface types p).bind fun t => ?_
    exact (faultIs_ofInterfaceList types ps).bind fun ts => faultIs_ok _

end

end Types

section Catalog

open Catalog

variable {subject : Subject} {base : BaseContract} {contract file name : String}
  {found : Selectors} {k : Option ContractFunction × Selectors}

theorem faultIs_selectorOf (node : Option Node) (name : String) (arguments : List ParameterType) :
    FaultIs Error.NotGenerated (selectorOf subject node name arguments) := by
  unfold selectorOf
  split
  · exact faultIs_ok _
  · dsimp only
    split
    · exact faultIs_error rfl
    · split
      · exact faultIs_ok _
      · exact faultIs_error rfl

theorem faultIs_unlessFound {make : Except Error (Option ContractFunction)}
    (h : FaultIs Error.NotGenerated make) (found : Selectors) (selector : Option String) :
    FaultIs Error.NotGenerated (unlessFound found selector make) := by
  unfold unlessFound
  split
  · exact faultIs_ok _
  · exact h.bind fun _ => faultIs_ok _

theorem faultIs_visibilityOf : FaultIs Error.NotGenerated (visibilityOf n) := by
  unfold visibilityOf
  dsimp only
  split
  · exact faultIs_ok _
  · exact faultIs_error rfl

theorem faultIs_parameterTypes (key : String) :
    FaultIs Error.NotGenerated (parameterTypes subject base n key) :=
  FaultIs.mapM (fun n => faultIs_ofParameterWithin _ _ _ n) _

theorem faultIs_definedSelector (visibility : Visibility) (arguments : List ParameterType) :
    FaultIs Error.NotGenerated (definedSelector subject n visibility arguments) := by
  unfold definedSelector
  split
  · exact (faultIs_selectorOf _ _ _).map
  · exact faultIs_ok _

theorem faultIs_catalogOfDefinition :
    FaultIs Error.NotGenerated (ofDefinition subject base found n) := by
  refine faultIs_visibilityOf.bind fun visibility => ?_
  refine (faultIs_parameterTypes _).bind fun arguments => ?_
  refine (faultIs_definedSelector _ _).bind fun selector => faultIs_unlessFound ?_ _ _
  exact (faultIs_parameterTypes _).bind fun results => faultIs_ok _

theorem faultIs_getterEntry : FaultIs Error.NotGenerated (getterEntry subject name) := by
  unfold getterEntry
  split
  · exact faultIs_ok _
  · exact faultIs_error rfl
  · exact faultIs_error rfl

theorem faultIs_ofVariable : FaultIs Error.NotGenerated (ofVariable subject base found n) := by
  refine faultIs_getterEntry.bind fun entry => ?_
  refine (FaultIs.mapM (faultIs_ofInterface _) _).bind fun arguments => ?_
  refine (faultIs_selectorOf _ _ _).bind fun selector => faultIs_unlessFound ?_ _ _
  exact (FaultIs.mapM (faultIs_ofInterface _) _).bind fun results => faultIs_ok _

theorem faultIs_ofEntry (entry : InterfaceEntry) :
    FaultIs Error.NotGenerated (ofEntry subject entry) := by
  refine (FaultIs.mapM (faultIs_ofInterface _) _).bind fun arguments => ?_
  refine (faultIs_selectorOf _ _ _).bind fun selector => ?_
  exact (FaultIs.mapM (faultIs_ofInterface _) _).bind fun results => faultIs_ok _

theorem faultIs_gather
    {step : Selectors → Node → Except Error (Option ContractFunction × Selectors)}
    (h : ∀ found n, FaultIs Error.NotGenerated (step found n)) (keep : ContractFunction → Bool)
    (found : Selectors) (ns : List Node) :
    FaultIs Error.NotGenerated (gather step keep found ns) := by
  induction ns generalizing found with
  | nil => exact faultIs_ok _
  | cons n ns ih => exact (h found n).bind fun ⟨_, found⟩ => (ih found).bind fun _ => faultIs_ok _

theorem faultIs_ofBases (found : Selectors) (bases : List BaseContract) :
    FaultIs Error.NotGenerated (ofBases subject contract found bases) := by
  induction bases generalizing found with
  | nil => exact faultIs_ok _
  | cons base bases ih =>
    have hbase : FaultIs Error.NotGenerated (ofBase subject contract found base) :=
      (faultIs_gather (fun _ _ => faultIs_catalogOfDefinition) _ _ _).bind fun ⟨_, _⟩ =>
        (faultIs_gather (fun _ _ => faultIs_ofVariable) _ _ _).bind fun _ => faultIs_ok _
    exact hbase.bind fun ⟨_, found⟩ => (ih found).bind fun _ => faultIs_ok _

end Catalog

section Queries

variable {compiled contract file name current : String} {lang : Language} {output : CompilerOutput}

theorem faultIs_ofSpecifier (heir : Int) (specifier : Json) :
    FaultIs Error.NotGenerated (Inheritance.ofSpecifier ts root heir specifier) := by
  unfold Inheritance.ofSpecifier
  dsimp only
  split
  · exact faultIs_error rfl
  · exact faultIs_fileOf.bind fun _ => faultIs_definition.bind fun _ => faultIs_ok _

theorem faultIs_directBases : FaultIs Error.NotGenerated (Inheritance.directBases ts root n) := by
  unfold Inheritance.directBases
  split
  · exact faultIs_error rfl
  · exact FaultIs.mapM (faultIs_ofSpecifier _) _

theorem faultIs_visit (steps : Nat) (found : List BaseContract) (waiting : List Node) :
    FaultIs Error.NotGenerated (Inheritance.visit ts root steps found waiting) := by
  induction steps generalizing found waiting with
  | zero => exact faultIs_ok _
  | succ steps ih =>
    cases waiting with
    | nil => exact faultIs_ok _
    | cons n waiting => exact faultIs_directBases.bind fun _ => ih _ _

theorem faultIs_basesOf (first : BaseContract) :
    FaultIs Error.NotGenerated (Inheritance.basesOf ts root first n) := by
  unfold Inheritance.basesOf
  split
  · exact faultIs_ok _
  · exact faultIs_visit _ _ _

theorem fails_contractReference :
    Fails Error.NotGenerated (Query.contractReference root compiled contract) := by
  refine fails_get.bind fun ix => ?_
  dsimp only
  split
  · exact (fails_set _).bind fun _ => fails_pure _
  · exact (fails_set _).bind fun _ => fails_pure _

theorem fails_trees : Fails Error.NotGenerated Query.trees := fails_get.bind fun _ => fails_pure _

theorem fails_contractDefinition :
    Fails Error.NotGenerated (Query.contractDefinition root compiled contract) := by
  refine fails_contractReference.bind fun reference => fails_trees.bind fun ts => ?_
  dsimp only
  split
  · exact fails_pure _
  · exact fails_throw rfl

theorem fails_baseContracts :
    Fails Error.NotGenerated (Query.baseContracts root compiled contract) :=
  fails_contractDefinition.bind fun _ => fails_trees.bind fun _ => (faultIs_basesOf _).ofExcept

theorem fails_fileTypes : Fails Error.NotGenerated (Query.fileTypes root compiled) :=
  fails_trees.bind fun _ => (FaultIs.mapM (fun _ => faultIs_ofDefinition) _).ofExcept

theorem fails_importedTypes {collect : Query (List SourceType)}
    (h : Fails Error.NotGenerated collect) :
    Fails Error.NotGenerated (Query.importedTypes root compiled collect) := by
  refine fails_get.bind fun ix => ?_
  split
  · exact (fails_set _).bind fun _ => fails_pure _
  · exact h.bind fun _ => (fails_modify _).bind fun _ => fails_pure _

theorem fails_ownedType (bases : List BaseContract) :
    Fails Error.NotGenerated (Query.ownedType root file bases n) := by
  unfold Query.ownedType
  split
  · exact fails_pure _
  split
  · exact fails_pure _
  · refine fails_contractReference.bind fun reference => fails_trees.bind fun ts => ?_
    dsimp only
    split
    · exact faultIs_ofDefinition.ofExcept.bind fun _ => fails_pure _
    · exact fails_pure _

theorem fails_sourceTypes :
    Fails Error.NotGenerated (Query.sourceTypes root compiled contract lang) := by
  refine fails_baseContracts.bind fun bases => fails_trees.bind fun ts => ?_
  refine (Fails.mapM (fun file => fails_importedTypes fails_fileTypes) _).bind fun ofFiles => ?_
  refine (Fails.mapM (fun file => ?_) _).bind fun ofBases => fails_pure _
  exact Fails.mapM (fun n => fails_ownedType bases) _

theorem fails_collectCatalog (subject : Catalog.Subject) :
    Fails Error.NotGenerated (Catalog.collect subject compiled contract) := by
  have hall : Fails Error.NotGenerated (Catalog.collectAll subject compiled contract) := by
    unfold Catalog.collectAll
    split
    · exact fails_baseContracts.bind fun bases => (faultIs_ofBases _ _).ofExcept
    · exact (FaultIs.mapM faultIs_ofEntry _).ofExcept
  have hcomplete (fs : List ContractFunction) :
      FaultIs Error.NotGenerated (Catalog.checkComplete subject fs) := by
    unfold Catalog.checkComplete
    dsimp only
    split
    · exact faultIs_ok _
    · exact faultIs_error rfl
  exact hall.bind fun fs => (hcomplete fs).ofExcept.bind fun _ => fails_pure _

theorem fails_dependenciesOfContract :
    Fails Error.NotGenerated (Dependencies.ofContract current root output file name) :=
  fails_baseContracts.bind fun _ => fails_trees.bind fun _ => fails_pure _

theorem fails_follow {names : String → List String} {next : String → Query (List String)}
    (h : ∀ file, Fails Error.NotGenerated (next file)) (steps : Nat) (seen waiting : List String)
    (found : SortedMap String (List String)) :
    Fails Error.NotGenerated (Dependencies.follow current names next steps seen found waiting) := by
  induction steps generalizing seen found waiting with
  | zero => exact fails_pure _
  | succ steps ih =>
    cases waiting with
    | nil => exact fails_pure _
    | cons file waiting =>
      unfold Dependencies.follow
      dsimp only
      split
      · exact ih _ _ _
      · exact (h file).bind fun _ => ih _ _ _

theorem fails_collectDependencies :
    Fails Error.NotGenerated (Dependencies.collect current root lang output) := by
  refine fails_trees.bind fun ts => fails_follow (fun file => ?_) _ _ _ _
  unfold Dependencies.ofFile
  split
  · exact fails_pure _
  · exact (Fails.mapM (fun name => fails_dependenciesOfContract) _).bind fun _ => fails_pure _

end Queries

section Actions

open Build

variable {setting : BuildSetting} {file configFile name : String} {index : Nat}
  {isGenerated : Bool} {s s' : BuildState} {e : Error}

theorem fails_input {α : Type} (r : Except InputFault α) :
    Fails Error.NotGenerated (input r) := by
  cases r with
  | error fault => exact fails_throw rfl
  | ok a => exact fails_pure a

theorem fails_query {α : Type} {q : Query α} (h : Fails Error.NotGenerated q) :
    Fails Error.NotGenerated (query q) := by
  intro s e s' hrun
  unfold query at hrun
  rw [run_get_bind] at hrun
  rcases hq : q.run.run s.index with ⟨fault | a, ix⟩
  · rw [hq] at hrun
    cases hrun
    exact h _ _ _ hq
  · rw [hq] at hrun
    cases hrun

theorem fails_onFiles (failure : FileFault → Error) (h : ∀ fault, (failure fault).NotGenerated)
    (change : FileTree → Except FileFault FileTree) :
    Fails Error.NotGenerated (onFiles failure change) := by
  refine fails_get.bind fun s => ?_
  split
  · exact fails_modify _
  · exact fails_throw (h _)

theorem fails_copySources (unitName : String) (lang : Language) (output : CompilerOutput) :
    Fails Error.NotGenerated (Collect.copySources setting unitName lang output) := by
  refine (fails_onFiles .file (fun _ => rfl) _).bind fun _ => Fails.foldlM (fun lists source => ?_) _ _
  refine Fails.bind (fails_onFiles _ ?_ _) fun _ => fails_pure _
  exact fun _ => rfl

theorem fails_linkBytecode (code : Bytecode) :
    Fails Error.NotGenerated (Record.linkBytecode setting code) := by
  refine fails_get.bind fun s => ?_
  dsimp only
  split
  · exact (fails_modify _).bind fun _ => fails_pure _
  · exact fails_throw rfl
  · exact fails_throw rfl

theorem faultIs_immutables (ts : Trees) (root contract : String) (code : Bytecode) :
    FaultIs Error.NotGenerated (Record.immutables ts root contract code) := by
  refine (FaultIs.mapM (fun ⟨id, ranges⟩ => ?_) _).bind fun _ => faultIs_ok _
  change FaultIs _ (Record.immutablesOf ts root contract id ranges)
  unfold Record.immutablesOf
  split
  · exact faultIs_ok _
  · exact faultIs_error rfl

theorem fails_ofContract {c : Compilation} {reportFile : String} {isPrimary : Bool} :
    Fails Error.NotGenerated (Record.ofContract setting c reportFile isPrimary file name) := by
  have htypes (root : String) (lang : Language) :
      Fails Error.NotGenerated (Record.types root file name lang) := by
    unfold Record.types
    cases lang with
    | solidity => exact fails_query fails_sourceTypes
    | vyper => exact fails_pure []
  have hsource (root : String) : Fails Error.NotGenerated (Record.sourceRange root file name) :=
    fails_get.bind fun _ => (fails_modify _).bind fun _ => fails_pure _
  unfold Record.ofContract
  split
  · exact fails_throw rfl
  · extract_lets
    refine (htypes _ _).bind fun types => fails_get.bind fun _ => ?_
    extract_lets
    refine (fails_query (fails_collectCatalog _)).bind fun functions => (hsource _).bind fun _ => ?_
    extract_lets
    refine (fails_linkBytecode _).bind fun bytecode => ?_
    extract_lets rest
    have hrest : ∀ u, Fails Error.NotGenerated (rest u) := by
      intro u
      refine (fails_linkBytecode _).bind fun constructorBytecode => fails_get.bind fun _ => ?_
      refine (faultIs_immutables _ _ _ _).ofExcept.bind fun immutables => fails_get.bind fun _ => ?_
      exact (fails_input _).bind fun address => fails_pure _
    split
    · refine Fails.bind ?_ hrest
      exact fails_throw rfl
    · exact hrest ()

theorem faultIs_insert (ix : SyntaxIndex) (sources : SortedMap String CompiledSource)
    (lang : Language) : FaultIs Error.NotGenerated (ix.insert root sources lang) := by
  have hunits (rest : List (String × CompiledSource)) :
      FaultIs Error.NotGenerated (Trees.unitsOfSources root lang rest) := by
    induction rest with
    | nil => exact faultIs_ok _
    | cons entry rest ih =>
      unfold Trees.unitsOfSources
      split
      · exact faultIs_error rfl
      · exact ih.bind fun _ => faultIs_ok _
  exact (hunits _).bind fun _ => faultIs_ok _

/-- What later files depend on: the index, the model, the addresses and the libraries linked. -/
def core (s : BuildState) : SyntaxIndex × BuildModel × AddressBook × List String :=
  (s.index, s.model, s.book, s.linkedLibraries)

theorem ignoresFiles_core : IgnoresFiles core :=
  ⟨fun _ _ _ => rfl, fun _ _ => rfl, fun _ _ => rfl, fun _ _ => rfl⟩

/-- A compilation that is refused as generated code leaves all of this as it was. -/
theorem keepsUnless_compile :
    KeepsUnless Error.NotGenerated core (Collect.compile setting file configFile index isGenerated) := by
  refine .keeps_bind (Collect.keeps_toolchain ignoresFiles_core _) fun tools => ?_
  refine .keeps_bind (keeps_tool _) fun settings => .keeps_bind keeps_get fun _ => ?_
  refine .keeps_bind (keeps_tool _) fun input => ?_
  refine .keeps_bind (keeps_request ignoresFiles_core.requests _ _) fun output => ?_
  refine .keeps_bind (Collect.keeps_saveOutput ignoresFiles_core _ _) fun _ => ?_
  refine .bind_fails (keeps_ofExcept _).keepsUnless fun _ => fails_get.bind fun _ => ?_
  exact (faultIs_insert _ _ _).ofExcept.bind fun _ => (fails_modify _).bind fun _ => fails_pure _

/-- After its compilation, collecting a file does not refuse generated code any more. -/
theorem exists_units_eq_bind : ∃ rest : Compilation → Build (List BuildUnit),
    Collect.units setting file configFile index isGenerated =
      Collect.compile setting file configFile index isGenerated >>= rest ∧
    ∀ c, Fails Error.NotGenerated (rest c) := by
  refine ⟨_, rfl, fun c => ?_⟩
  extract_lets
  refine (fails_copySources _ _ _).bind fun lists => ?_
  extract_lets rest
  have hrest : ∀ u, Fails Error.NotGenerated (rest u) := by
    intro u
    refine fails_get.bind fun _ => (fails_query fails_collectDependencies).bind fun contracts => ?_
    refine (fails_modify _).bind fun _ => ?_
    split
    · exact fails_throw rfl
    · refine (Fails.mapM (fun place => fails_ofContract) _).bind fun records => ?_
      refine Fails.bind (fails_get.bind fun _ => (fails_set _).bind fun _ => fails_pure _) ?_
      refine fun libraries => Fails.mapM (fun contract => ?_) _
      exact fails_get.bind fun _ => (fails_input _).bind fun address => fails_pure _
  split
  · exact (fails_modify _).bind hrest
  · exact hrest ()

theorem keepsUnless_units :
    KeepsUnless Error.NotGenerated core (Collect.units setting file configFile index isGenerated) := by
  obtain ⟨rest, hunits, hrest⟩ := exists_units_eq_bind
  rw [hunits]
  exact keepsUnless_compile.bind_fails hrest

/-- Code that is refused is refused by its compilation. -/
theorem compile_eq_error_of_units (he : e.isGenerated = true)
    (h : (Collect.units setting file configFile index isGenerated).run.run s = (.error e, s')) :
    (Collect.compile setting file configFile index isGenerated).run.run s = (.error e, s') := by
  obtain ⟨rest, hunits, hrest⟩ := exists_units_eq_bind
  rw [hunits] at h
  rcases bind_eq_error_iff.1 h with h | ⟨c, t, -, h⟩
  · exact h
  · have hnot : e.isGenerated = false := hrest c t e s' h
    rw [hnot] at he
    cases he

end Actions

end ContractModel
