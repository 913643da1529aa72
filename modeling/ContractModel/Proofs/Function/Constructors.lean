import ContractModel.Proofs.Function.Collection
import ContractModel.Proofs.Types.Parameter

/-! # Collected constructors

A constructor always counts as a part of the interface, so the collection lists the constructors of
the whole base list, except for private ones of other contracts and those with a parameter in
storage. The only constructor is the contract's own exactly when no base declares one.
-/

namespace ContractModel.Catalog

open Declaration ParameterType

/-- A definition without a name that no parameter in storage and no other contract's privacy keeps
out. -/
def Declaration.listsConstructor (contract : String) : Declaration → Bool
  | definition base n =>
    n.name.isEmpty &&
      !(parameterNodes n "parameters" ++ parameterNodes n "returnParameters").any inStorage &&
      (n.string? "visibility" != some "private" || base.name == contract)
  | stateVariable _ _ => false

/-- The constructors that a contract of the base list adds. -/
def constructorsIn (s : Subject) (contract : String) (c : BaseContract) : List Declaration :=
  (declared s c).filter (listsConstructor contract)

/-- There is at most one constructor, and the contract itself declares it. -/
structure OwnConstructorOnly (own : BaseContract) (made : List (Declaration × ContractFunction)) :
    Prop where
  atMostOne : (made.filter fun p => p.2.isConstructor).length ≤ 1
  own : ∀ p ∈ made, p.2.isConstructor → p.1.base = own

variable {s : Subject} {compiled contract : String} {ix ix' : SyntaxIndex} {base own : BaseContract}
  {d : Declaration} {ds : List Declaration} {made : List (Declaration × ContractFunction)}
  {found found' : Selectors} {r : Option ContractFunction} {fs : List ContractFunction} {n : Node}
  {σ : String}

theorem visibilityOf_eq_ok_iff {v : Visibility} :
    visibilityOf n = .ok v ↔ n.string? "visibility" = some v.text := by
  unfold visibilityOf
  cases n.string? "visibility" with
  | none =>
    constructor
    · rintro ⟨⟩
    · rintro ⟨⟩
  | some text =>
    simp only [Option.getD_some, Option.some.injEq, ← Visibility.ofText?_eq_some_iff]
    cases Visibility.ofText? text <;> simp

theorem any_isStorage_of_parameterTypes {key : String} {ts : List ParameterType}
    (h : parameterTypes s base n key = .ok ts) :
    ts.any ParameterType.isStorage = (parameterNodes n key).any inStorage := by
  have hall := Run.forall₂_of_mapM_eq_ok h
  clear h
  generalize parameterNodes n key = ns at hall ⊢
  induction hall with
  | nil => rfl
  | cons hparameter _ ih =>
    obtain ⟨-, -, -, -, -, hstorage, -⟩ := ofParameter_eq_ok hparameter
    rw [List.any_cons, List.any_cons, hstorage, ih]

theorem isInInterface_described (visibility : Visibility) (arguments results : List ParameterType)
    (h : n.name.isEmpty) :
    (described s base n visibility arguments results σ).isInInterface =
      !(arguments ++ results).any ParameterType.isStorage := by
  rw [described, h]
  rfl

theorem Declaration.Makes.any_isConstructor {selector : Option String} (h : Makes s d selector r) :
    (r.filter (d.counts contract)).any ContractFunction.isConstructor =
      d.listsConstructor contract := by
  cases h with
  | stateVariable _ => rfl
  | @definition base n visibility arguments results _ f _ harguments hresults hvisibility hf =>
    have hconstructor : f.isConstructor = n.name.isEmpty := by rw [hf, isConstructor_described]
    have hcounts : (Declaration.definition base n).counts contract f =
        (n.string? "visibility" != some "private" || base.name == contract) := by
      rw [hf, visibilityOf_eq_ok_iff.1 hvisibility]
      cases visibility <;> rfl
    cases hname : n.name.isEmpty with
    | false =>
      rw [hname] at hconstructor
      simp [listsConstructor, hname, hconstructor, Option.any_filter]
    | true =>
      have hinterface : f.isInInterface =
          !(parameterNodes n "parameters" ++
            parameterNodes n "returnParameters").any inStorage := by
        rw [hf, isInInterface_described _ _ _ hname, List.any_append, List.any_append,
          any_isStorage_of_parameterTypes harguments, any_isStorage_of_parameterTypes hresults]
      rw [hname] at hconstructor
      rw [listsConstructor, hname, ← hinterface, ← hcounts, hconstructor]
      cases f.isInInterface <;> simp [hconstructor, Option.any_filter]

theorem isEmpty_of_selector? (h : (definition base n).selector? s = .ok (some σ)) :
    n.name.isEmpty = false := by
  obtain ⟨visibility, -, h⟩ := Run.except_bind_eq_ok_iff.1 h
  obtain ⟨arguments, -, h⟩ := Run.except_bind_eq_ok_iff.1 h
  rcases definedSelector_eq_ok h with ⟨hcall, -⟩ | ⟨-, hnone⟩
  · simpa using (Bool.and_eq_true_iff.1 hcall).1
  · cases hnone

/-- Reading a declaration gives a constructor exactly if the declaration lists one: constructors
have no selector that could have been found before. -/
theorem any_isConstructor_of_read (h : d.read s found = .ok (r, found')) :
    (r.filter (d.counts contract)).any ContractFunction.isConstructor =
      d.listsConstructor contract := by
  obtain ⟨selector, hselector, ⟨⟨σ, -, rfl⟩, rfl, -⟩ | ⟨-, hmakes, -⟩⟩ := read_eq_ok h
  · cases d with
    | definition base n => simp [listsConstructor, isEmpty_of_selector? hselector]
    | stateVariable base n => rfl
  · exact hmakes.any_isConstructor

theorem base_of_mem_constructorsIn {c : BaseContract} (h : d ∈ constructorsIn s contract c) :
    d.base = c :=
  base_of_mem_declared (List.mem_of_mem_filter h)

/-- The constructors of a collection are those that the contracts of the base list add. -/
theorem constructors_eq_flatMap {bases : List BaseContract}
    (h : Traced s compiled contract ix bases made) :
    (made.filter fun p => p.2.isConstructor).map Prod.fst =
      bases.flatMap (constructorsIn s contract) := by
  obtain ⟨found, hmade⟩ := h.made_eq_ok
  rw [map_fst_filter any_isConstructor_of_read hmade, List.filter_flatMap]
  rfl

/-- The only constructor is the contract's own exactly when it declares at most one and no other
contract of the base list declares any. -/
theorem ownConstructorOnly_iff (hlang : s.lang = .solidity)
    (h : (collectAll s compiled contract).run.run ix = (.ok fs, ix')) :
    ∃ own rest made, Traced s compiled contract ix (own :: rest) made ∧ own.file = compiled ∧
      own.name = contract ∧ fs = made.map Prod.snd ∧
      (OwnConstructorOnly own made ↔
        (constructorsIn s contract own).length ≤ 1 ∧
          ∀ c ∈ rest, constructorsIn s contract c = []) := by
  obtain ⟨bases, made, htraced, hfs⟩ := exists_traced_of_collectAll hlang h
  obtain ⟨isLibrary, rest, rfl, hnodup⟩ := htraced.exists_eq_cons
  refine ⟨_, rest, made, htraced, rfl, rfl, hfs, ?_⟩
  have hlist := constructors_eq_flatMap htraced
  rw [List.flatMap_cons] at hlist
  have hlength := congrArg List.length hlist
  rw [List.length_map, List.length_append] at hlength
  constructor
  · rintro ⟨hatMostOne, hown⟩
    refine ⟨by omega, fun c hc => List.eq_nil_iff_forall_not_mem.2 fun d hd => ?_⟩
    have hmem : d ∈ (made.filter fun p => p.2.isConstructor).map Prod.fst := by
      rw [hlist]
      exact List.mem_append_right _ (List.mem_flatMap.2 ⟨c, hc, hd⟩)
    obtain ⟨p, hp, rfl⟩ := List.mem_map.1 hmem
    obtain ⟨hp, hconstructor⟩ := List.mem_filter.1 hp
    have hsame := (base_of_mem_constructorsIn hd).symm.trans (hown p hp hconstructor)
    exact (List.nodup_cons.1 hnodup).1 (hsame ▸ hc)
  · rintro ⟨hatMostOne, hrest⟩
    rw [List.flatMap_eq_nil_iff.2 hrest] at hlist hlength
    refine ⟨by simpa [hlength] using hatMostOne, fun p hp hconstructor => ?_⟩
    have hmem : p.1 ∈ (made.filter fun p => p.2.isConstructor).map Prod.fst :=
      List.mem_map_of_mem (List.mem_filter.2 ⟨hp, hconstructor⟩)
    rw [hlist, List.append_nil] at hmem
    exact base_of_mem_constructorsIn hmem

section Chain

/-! `Heir is Base`, where some of the two contracts have a constructor. -/

def constructorNode (id : Nat) (contract : String) : Node :=
  .ofFunction id contract "" "public" []

def chain (nodes : List Node) : Subject :=
  .ofNodes "/Heir.sol" nodes {
    interface := [⟨"constructor", none, [], [], none, none⟩]
    storageLayout := none
    machine := none }

def heirOnly : List Node :=
  [.ofContract 1 "Base" [], .ofContract 2 "Heir" [1], constructorNode 20 "Heir"]

def baseToo : List Node := heirOnly ++ [constructorNode 10 "Base"]

end Chain

/-- The constructor of an heir whose base has none is the only one. -/
theorem ownConstructorOnly_heirOnly : ∃ fs ix' rest made,
    (collectAll (chain heirOnly) "/Heir.sol" "Heir").run.run (.ofNodes "/Heir.sol" heirOnly) =
      (.ok fs, ix') ∧
    Traced (chain heirOnly) "/Heir.sol" "Heir" (.ofNodes "/Heir.sol" heirOnly)
      (⟨"/Heir.sol", "Heir", false⟩ :: rest) made ∧
    fs = made.map Prod.snd ∧ fs.map ContractFunction.nodeId = [some 20] ∧
    OwnConstructorOnly ⟨"/Heir.sol", "Heir", false⟩ made := by
  have hrun : ((collectAll (chain heirOnly) "/Heir.sol" "Heir").run.run
      (.ofNodes "/Heir.sol" heirOnly)).1.toOption.map (fun fs => fs.map ContractFunction.nodeId) =
        some [some 20] := by decide +kernel
  obtain ⟨fs, ix', hfs, hids⟩ := Run.exists_of_map_eq_some hrun
  obtain ⟨own, rest, made, htraced, -, -, heq, hiff⟩ := ownConstructorOnly_iff rfl hfs
  obtain ⟨rfl, rfl⟩ := List.cons.inj (htraced.bases_eq
    [⟨"/Heir.sol", "Heir", false⟩, ⟨"/Heir.sol", "Base", false⟩] (by decide +kernel))
  refine ⟨fs, ix', _, made, hfs, htraced, heq, hids, hiff.2 ⟨?_, ?_⟩⟩
  · decide +kernel
  · have hbase : ∀ c ∈ [(⟨"/Heir.sol", "Base", false⟩ : BaseContract)],
        (constructorsIn (chain heirOnly) "Heir" c).isEmpty := by decide +kernel
    exact fun c hc => List.isEmpty_iff.1 (hbase c hc)

/-- Both constructors are listed where the base has one too. -/
theorem not_ownConstructorOnly_baseToo : ∃ fs ix' rest made,
    (collectAll (chain baseToo) "/Heir.sol" "Heir").run.run (.ofNodes "/Heir.sol" baseToo) =
      (.ok fs, ix') ∧
    Traced (chain baseToo) "/Heir.sol" "Heir" (.ofNodes "/Heir.sol" baseToo)
      (⟨"/Heir.sol", "Heir", false⟩ :: rest) made ∧
    fs = made.map Prod.snd ∧ fs.map ContractFunction.nodeId = [some 20, some 10] ∧
    ¬ OwnConstructorOnly ⟨"/Heir.sol", "Heir", false⟩ made := by
  have hrun : ((collectAll (chain baseToo) "/Heir.sol" "Heir").run.run
      (.ofNodes "/Heir.sol" baseToo)).1.toOption.map (fun fs => fs.map ContractFunction.nodeId) =
        some [some 20, some 10] := by decide +kernel
  obtain ⟨fs, ix', hfs, hids⟩ := Run.exists_of_map_eq_some hrun
  obtain ⟨bases, made, htraced, rfl⟩ := exists_traced_of_collectAll rfl hfs
  obtain rfl := htraced.bases_eq
    [⟨"/Heir.sol", "Heir", false⟩, ⟨"/Heir.sol", "Base", false⟩] (by decide +kernel)
  refine ⟨_, ix', _, made, hfs, htraced, rfl, hids, fun honly => ?_⟩
  have hlength := congrArg List.length (constructors_eq_flatMap htraced)
  have htwo : ([⟨"/Heir.sol", "Heir", false⟩, ⟨"/Heir.sol", "Base", false⟩].flatMap
      (constructorsIn (chain baseToo) "Heir")).length = 2 := by decide +kernel
  rw [List.length_map, htwo] at hlength
  have hle := honly.atMostOne
  omega

end ContractModel.Catalog
