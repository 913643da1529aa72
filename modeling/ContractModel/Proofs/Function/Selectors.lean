import ContractModel.Proofs.Function.Collection

/-! # Selectors and signatures

A computed selector is the one of the signature, and the compiler lists it. A selector that the tree
reports is not compared with anything, so all selectors agree with their signatures exactly when the
reported ones do. Where the tree is right, a selector agrees as long as the signature does not show
the name of a declared type.
-/

namespace ContractModel.Catalog

/-- The selector of a function is the one of its signature, and the compiler lists it so. -/
structure SelectorAgrees (s : Subject) (f : ContractFunction) : Prop where
  hashed : f.selector = selector f.signature
  listed : s.contract.methodIdentifiers.get? f.signature =
    some (s.lang.normalizeSelector f.selector)

/-- The selector that the tree reports with a node. -/
def reported? (n : Option Node) : Option String := n.bind fun n => n.string? "functionSelector"

variable {s : Subject} {compiled contract : String} {ix ix' : SyntaxIndex} {d : Declaration}
  {ds : List Declaration} {made : List (Declaration × ContractFunction)} {found : Selectors}
  {f : ContractFunction} {fs : List ContractFunction} {n : Option Node} {σ : String}

theorem selectorOf_of_reported {name : String} {arguments : List ParameterType}
    (h : selectorOf s n name arguments = .ok σ) {τ : String} (hτ : reported? n = some τ) :
    τ = σ := by
  unfold selectorOf at h
  rw [reported?] at hτ
  rw [hτ] at h
  exact Except.ok.inj h

theorem selectorOf_of_not_reported {name : String} {arguments : List ParameterType}
    (h : selectorOf s n name arguments = .ok σ) (hnone : reported? n = none) :
    σ = selector (ContractFunction.signatureWith ParameterType.signature name arguments) ∧
      s.contract.methodIdentifiers.get?
        (ContractFunction.signatureWith ParameterType.signature name arguments) =
          some (s.lang.normalizeSelector σ) := by
  unfold selectorOf at h
  rw [reported?] at hnone
  rw [hnone] at h
  simp only at h
  split at h
  · cases h
  · next expected hexpected =>
    split at h
    · next heq =>
      cases h
      exact ⟨rfl, hexpected.trans (congrArg some heq.symm)⟩
    · cases h

/-- A function that is called from outside has the selector found for its declaration. -/
theorem selectorOf_of_mem (h : trace s contract [] ds = .ok (made, found)) (hf : (d, f) ∈ made)
    (hσ : f.callSelector? = some σ) :
    selectorOf s (some d.node) f.name f.arguments = .ok σ := by
  obtain ⟨selector, hmakes, -⟩ := makes_of_mem h hf
  rw [hmakes.callSelector?_eq] at hσ
  subst hσ
  exact hmakes.selectorOf_eq_ok

theorem selectorOf_of_ofEntry {e : InterfaceEntry} (h : ofEntry s e = .ok f) :
    selectorOf s none f.name f.arguments = .ok f.selector := by
  obtain ⟨arguments, harguments, h⟩ := Run.except_bind_eq_ok_iff.1 h
  obtain ⟨σ, hσ, h⟩ := Run.except_bind_eq_ok_iff.1 h
  obtain ⟨results, hresults, h⟩ := Run.except_bind_eq_ok_iff.1 h
  cases h
  exact hσ

theorem selectorAgrees_of_not_reported (h : selectorOf s n f.name f.arguments = .ok f.selector)
    (hnone : reported? n = none) : SelectorAgrees s f := by
  obtain ⟨hhashed, hlisted⟩ := selectorOf_of_not_reported h hnone
  exact ⟨hhashed, hlisted⟩

/-- The tree reports the selector with the declaration that a collected function comes from. -/
def Reports (s : Subject) (compiled contract : String) (ix : SyntaxIndex) (f : ContractFunction)
    (σ : String) : Prop :=
  s.lang = .solidity ∧ ∃ bases made d, Traced s compiled contract ix bases made ∧
    (d, f) ∈ made ∧ reported? (some d.node) = some σ

/-- A reported selector belongs to a collected function, and a node of a base's file has it. -/
theorem Reports.exists_node {bases : List BaseContract} (h : Reports s compiled contract ix f σ)
    (hfs : (collectAll s compiled contract).run.run ix = (.ok fs, ix'))
    (hbases : ((Query.baseContracts s.root compiled contract).run.run ix).1.toOption = some bases) :
    f ∈ fs ∧ ∃ base ∈ bases, ∃ n ∈ s.trees.nodesOf s.root base.file,
      reported? (some n) = some σ := by
  obtain ⟨hlang, bases', made, d, htraced, hd, hσ⟩ := h
  obtain ⟨_, _, htraced', rfl⟩ := exists_traced_of_collectAll hlang hfs
  obtain ⟨rfl, rfl⟩ := htraced.unique htraced'
  obtain rfl := htraced.bases_eq bases hbases
  obtain ⟨found, hmade⟩ := htraced.made_eq_ok
  obtain ⟨pre, post, -, -, -, hds, -⟩ := exists_read_of_mem hmade hd
  have hmem : d ∈ bases'.flatMap (declared s) := by
    rw [hds]
    exact List.mem_append_right pre List.mem_cons_self
  obtain ⟨base, hbase, hdeclared⟩ := List.mem_flatMap.1 hmem
  exact ⟨List.mem_map_of_mem hd, base, hbase, d.node, node_mem_of_mem_declared hdeclared, hσ⟩

/-- All selectors for calls from outside agree with their signatures exactly when those that the
tree reports do. -/
theorem selectors_agree_iff (h : (collect s compiled contract).run.run ix = (.ok fs, ix')) :
    (∀ f ∈ fs, ¬ f.isConstructor → f.visibility.isExternal → SelectorAgrees s f) ↔
      ∀ f σ, Reports s compiled contract ix f σ → ¬ f.isConstructor → f.visibility.isExternal →
        σ = selector f.signature ∧
          s.contract.methodIdentifiers.get? f.signature = some (s.lang.normalizeSelector σ) := by
  obtain ⟨h, -⟩ := collect_eq_ok_iff.1 h
  constructor
  · rintro hall f σ ⟨hlang, bases, made, d, htraced, hd, hσ⟩ hconstructor hexternal
    obtain ⟨_, _, htraced', rfl⟩ := exists_traced_of_collectAll hlang h
    obtain ⟨rfl, rfl⟩ := htraced.unique htraced'
    obtain ⟨found, hmade⟩ := htraced.made_eq_ok
    have hcall := ContractFunction.callSelector?_eq_some_iff.2 ⟨hconstructor, hexternal, rfl⟩
    have hagrees := hall f (List.mem_map_of_mem hd) hconstructor hexternal
    rw [selectorOf_of_reported (selectorOf_of_mem hmade hd hcall) hσ]
    exact ⟨hagrees.hashed, hagrees.listed⟩
  · intro hreports f hf hconstructor hexternal
    rcases collected_cases h hf with
      ⟨hlang, bases, made, found, d, htraced, hmade, hd⟩ | ⟨e, -, -, he⟩
    · have hcall := ContractFunction.callSelector?_eq_some_iff.2 ⟨hconstructor, hexternal, rfl⟩
      have hselector := selectorOf_of_mem hmade hd hcall
      cases hσ : reported? (some d.node) with
      | none => exact selectorAgrees_of_not_reported hselector hσ
      | some σ =>
        obtain ⟨hhashed, hlisted⟩ := hreports f σ
          ⟨hlang, bases, made, d, htraced, hd, hσ⟩ hconstructor hexternal
        cases selectorOf_of_reported hselector hσ
        exact ⟨hhashed, hlisted⟩
    · exact selectorAgrees_of_not_reported (selectorOf_of_ofEntry he) rfl

/-- The compiler lists one signature under the selector of a function, the right one. -/
structure ListedAs (s : Subject) (f : ContractFunction) (signature : String) : Prop where
  hashed : f.selector = selector signature
  iff_eq : ∀ other, s.contract.methodIdentifiers.get? other =
    some (s.lang.normalizeSelector f.selector) ↔ other = signature

/-- Where the compiler is right, a selector agrees exactly when the signature is the listed one. -/
theorem selectorAgrees_iff_signature_eq {signature : String} (h : ListedAs s f signature) :
    SelectorAgrees s f ↔ f.signature = signature := by
  constructor
  · intro hagrees
    exact (h.iff_eq f.signature).1 hagrees.listed
  · rintro rfl
    exact ⟨h.hashed, (h.iff_eq _).2 rfl⟩

section Market

/-! A contract `Market` with `function quote(… p) external`, for two types of the argument. -/

variable (typeName : Json) (reported : String)

/-- A declared type that wraps `uint256`. -/
def priceNode : Node where
  id := 2
  kind := "UserDefinedValueTypeDefinition"
  contract := none
  lang := .solidity
  fields := [("id", .ofNat 2), ("name", "Price"), ("canonicalName", "Price"),
    ("underlyingType", .object [("id", .ofNat 3), ("nodeType", "ElementaryTypeName"),
      ("name", "uint256"), ("typeDescriptions", .object [("typeString", "uint256")])])]

def quoteNode : Node :=
  .ofFunction 30 "Market" "quote" "external" [("functionSelector", .string reported),
    ("parameters", .object [("id", .ofNat 31), ("parameters", .array [
      .object [("id", .ofNat 32), ("name", "p"), ("typeName", typeName)]])])]

def marketNodes : List Node :=
  [priceNode, .ofContract 10 "Market" [], quoteNode typeName reported]

def marketIndex : SyntaxIndex := .ofNodes "/Market.sol" (marketNodes typeName reported)

def market (signature : String) (input : InterfaceParameter) : Subject :=
  .ofNodes "/Market.sol" (marketNodes typeName reported) {
    interface := [⟨"function", some "quote", [input], [], none, none⟩]
    storageLayout := none
    machine := some { Machine.empty with
      methodIdentifiers := some ((∅ : SortedMap String String).insert signature reported) } }

def priceName : Json :=
  .object [("id", .ofNat 33), ("nodeType", "UserDefinedTypeName"),
    ("referencedDeclaration", .ofNat 2), ("typeDescriptions", .object [("typeString", "Price")])]

def payableName : Json :=
  .object [("id", .ofNat 33), ("nodeType", "ElementaryTypeName"), ("name", "address"),
    ("stateMutability", "payable"),
    ("typeDescriptions", .object [("typeString", "address payable")])]

/-- The argument is an `address payable`, and the compiler reports the selector of
`quote(address)`. -/
def payableMarket : Subject :=
  market payableName (selector "quote(address)") "quote(address)"
    ⟨"p", "address", some "address payable", none⟩

/-- The argument is a `Price`, and the compiler reports the selector of `quote(uint256)`. -/
def pricedMarket : Subject :=
  market priceName "ed1bd76c" "quote(uint256)" ⟨"p", "uint256", some "Price", none⟩

end Market

/-- A reported selector agrees with a signature that shows elementary types only. -/
theorem selectors_agree_payable : ∃ fs ix',
    (collect payableMarket "/Market.sol" "Market").run.run
      (marketIndex payableName (selector "quote(address)")) = (.ok fs, ix') ∧
    fs.map ContractFunction.signature = ["quote(address)"] ∧
    ∀ f ∈ fs, ¬ f.isConstructor → f.visibility.isExternal → SelectorAgrees payableMarket f := by
  have hrun : ((collect payableMarket "/Market.sol" "Market").run.run
      (marketIndex payableName (selector "quote(address)"))).1.toOption.map
        (fun fs => fs.map ContractFunction.signature) = some ["quote(address)"] := by decide +kernel
  obtain ⟨fs, ix', hfs, hsignatures⟩ := Run.exists_of_map_eq_some hrun
  have hown : ((Query.baseContracts "/Market.sol" "/Market.sol" "Market").run.run
      (marketIndex payableName (selector "quote(address)"))).1.toOption =
        some [⟨"/Market.sol", "Market", false⟩] := by decide +kernel
  refine ⟨fs, ix', hfs, hsignatures, (selectors_agree_iff hfs).2 fun f σ hreports _ _ => ?_⟩
  obtain ⟨hf, base, hbase, n, hn, hσ⟩ := hreports.exists_node (collect_eq_ok_iff.1 hfs).1 hown
  have hsignature : f.signature = "quote(address)" := by
    have hmem := List.mem_map_of_mem (f := ContractFunction.signature) hf
    rw [hsignatures] at hmem
    exact List.mem_singleton.1 hmem
  have hreported : σ = selector "quote(address)" := by
    cases List.mem_singleton.1 hbase
    have hn : n ∈ marketNodes payableName (selector "quote(address)") := by
      rwa [payableMarket, market, Subject.ofNodes, SyntaxIndex.nodesOf_ofNodes] at hn
    rcases hn with _ | ⟨_, _ | ⟨_, _ | ⟨_, ⟨⟩⟩⟩⟩
    · cases hσ
    · cases hσ
    · exact (Option.some.inj hσ).symm
  rw [hsignature, hreported]
  exact ⟨rfl, rfl⟩

/-- The signature shows the declared type `Price`, the compiler's `quote(uint256)` does not. -/
theorem selectors_disagree_priced : ∃ fs ix',
    (collect pricedMarket "/Market.sol" "Market").run.run (marketIndex priceName "ed1bd76c") =
      (.ok fs, ix') ∧
    ¬ ∀ f ∈ fs, ¬ f.isConstructor → f.visibility.isExternal → SelectorAgrees pricedMarket f := by
  have hrun : ((collect pricedMarket "/Market.sol" "Market").run.run
      (marketIndex priceName "ed1bd76c")).1.toOption.map (fun fs =>
        fs.map fun f => (f.signature, f.isConstructor, f.visibility)) =
      some [("quote(Price)", false, .external)] := by decide +kernel
  obtain ⟨fs, ix', hfs, hshape⟩ := Run.exists_of_map_eq_some hrun
  obtain ⟨f, rfl, hf⟩ := List.map_eq_singleton_iff.1 hshape
  simp only [Prod.mk.injEq] at hf
  obtain ⟨hsignature, hconstructor, hvisibility⟩ := hf
  refine ⟨[f], ix', hfs, fun hall => ?_⟩
  have hlisted := (hall f (List.mem_singleton_self f) (by simp [hconstructor])
    (by simp [hvisibility, Visibility.isExternal])).listed
  have hnone : pricedMarket.contract.methodIdentifiers.get? "quote(Price)" = none := by
    decide +kernel
  rw [hsignature, hnone] at hlisted
  cases hlisted

end ContractModel.Catalog
