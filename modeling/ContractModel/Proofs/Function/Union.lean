import ContractModel.Proofs.Function.Constructors
import ContractModel.Proofs.Function.Overrides
import Mathlib.Data.List.Nodup

/-! # The union of what the base list declares

A collection has one function for each selector that the contracts of the base list declare, and
one for each definition in them that is called from inside, the private ones of other contracts
apart. A definition belongs to each contract of its file that has the name of the contract around
it. So it is listed twice where a contract and a library of one file share a name.
-/

namespace ContractModel

/-- The library of the file that has the contract's name, or the contract that has the library's. -/
def BaseContract.namesake (c : BaseContract) : BaseContract := { c with isLibrary := !c.isLibrary }

/-- Whether a function is called from inside only. -/
def ContractFunction.isInner (f : ContractFunction) : Bool :=
  !f.isConstructor && !f.visibility.isExternal

namespace Catalog

open Declaration Inheritance

namespace Declaration

/-- The declaration of a function that can be called from outside. -/
def isCallable : Declaration → Bool
  | definition _ n =>
    !n.name.isEmpty &&
      (n.string? "visibility" == some "external" || n.string? "visibility" == some "public")
  | stateVariable _ _ => true

/-- The definition of a function that is called from inside and counts for the contract. -/
def isInner (contract : String) : Declaration → Bool
  | definition base n =>
    !n.name.isEmpty && (n.string? "visibility" == some "internal" ||
      n.string? "visibility" == some "private" && base.name == contract)
  | stateVariable _ _ => false

/-- A definition in the file with the identifier. -/
def isDefinitionAt (file : String) (id : Int) : Declaration → Bool
  | definition base n => base.file == file && n.id == id
  | stateVariable _ _ => false

end Declaration

/-- The selectors of the listed functions that can be called from outside. -/
def callSelectors (made : List (Declaration × ContractFunction)) : Selectors :=
  (made.map Prod.snd).filterMap ContractFunction.callSelector?

/-- How many of the listed functions a definition has made. -/
def timesListed (made : List (Declaration × ContractFunction)) (file : String) (id : Int) : Nat :=
  made.countP fun p => p.1.isDefinitionAt file id

/-- How many contracts of the base list a definition in one of them belongs to. -/
def holders (bases : List BaseContract) (c : BaseContract) : Nat :=
  if c.namesake ∈ bases then 2 else 1

/-- What a collection lists is the union of what the contracts of the base list declare. -/
structure ListsUnion (s : Subject) (contract : String) (bases : List BaseContract)
    (made : List (Declaration × ContractFunction)) : Prop where
  distinct : (callSelectors made).Nodup
  callable : ∀ c ∈ bases, ∀ d ∈ declared s c, d.isCallable →
    ∃ σ, d.selector? s = .ok (some σ) ∧ σ ∈ callSelectors made
  internal : ∀ c ∈ bases, ∀ n ∈ s.trees.nodesOf s.root c.file, isFunctionDefinition c.name n →
    n.name ≠ "" → n.string? "visibility" = some "internal" →
      timesListed made c.file n.id = holders bases c
  priv : ∀ c ∈ bases, ∀ n ∈ s.trees.nodesOf s.root c.file, isFunctionDefinition c.name n →
    n.name ≠ "" → n.string? "visibility" = some "private" →
      timesListed made c.file n.id = if c.name = contract then holders bases c else 0
  /-- All others are constructors. -/
  only : ∀ p ∈ made, p.1 ∈ bases.flatMap (declared s) ∧ (∃ σ, Makes s p.1 σ (some p.2)) ∧
    (p.2.isConstructor ∨ p.2.callSelector?.isSome ∧ p.1.isCallable ∨
      p.2.isInner ∧ p.1.isInner contract)

variable {s : Subject} {compiled contract : String} {ix ix' : SyntaxIndex} {base c : BaseContract}
  {bases : List BaseContract} {d : Declaration} {ds : List Declaration} {n : Node}
  {made : List (Declaration × ContractFunction)} {found found' : Selectors}
  {r : Option ContractFunction} {f : ContractFunction} {fs : List ContractFunction} {σ : String}

section Selectors

theorem callSelectors_append (made made' : List (Declaration × ContractFunction)) :
    callSelectors (made ++ made') = callSelectors made ++ callSelectors made' := by
  simp [callSelectors]

theorem mem_callSelectors_iff :
    σ ∈ callSelectors made ↔ ∃ p ∈ made, p.2.callSelector? = some σ := by
  simp [callSelectors]

/-- What a declaration adds to the selectors was not found before, and it is found from then on. -/
theorem callSelectors_of_read (contract : String) (h : d.read s found = .ok (r, found')) :
    callSelectors ((r.filter (d.counts contract)).toList.map (d, ·)) = [] ∧ found ⊆ found' ∨
      ∃ σ, callSelectors ((r.filter (d.counts contract)).toList.map (d, ·)) = [σ] ∧ σ ∉ found ∧
        found' = found ++ [σ] := by
  obtain ⟨selector, -, ⟨-, rfl, rfl⟩ | ⟨hfresh, hmakes, rfl⟩⟩ := read_eq_ok h
  · exact .inl ⟨rfl, List.Subset.refl _⟩
  · cases hr : r.filter (d.counts contract) with
    | none => exact .inl ⟨rfl, List.subset_append_left _ _⟩
    | some f =>
      obtain ⟨rfl, -⟩ := Option.filter_eq_some_iff.1 hr
      have hcall := hmakes.callSelector?_eq
      cases selector with
      | none => exact .inl ⟨by simp [callSelectors, hcall], List.subset_append_left _ _⟩
      | some σ =>
        refine .inr ⟨σ, by simp [callSelectors, hcall], fun hσ => ?_, rfl⟩
        exact hfresh σ hσ rfl

theorem nodup_callSelectors (h : trace s contract found ds = .ok (made, found')) :
    (callSelectors made).Nodup ∧ ∀ σ ∈ callSelectors made, σ ∉ found := by
  induction ds generalizing found made with
  | nil =>
    cases h
    simp [callSelectors]
  | cons d ds ih =>
    obtain ⟨r, next, rest, hread, hrest, rfl⟩ := trace_cons_eq_ok_iff.1 h
    obtain ⟨hnodup, hfresh⟩ := ih hrest
    rw [callSelectors_append]
    rcases callSelectors_of_read contract hread with
      ⟨hnone, hsubset⟩ | ⟨σ, hσ, hnew, rfl⟩
    · rw [hnone, List.nil_append]
      exact ⟨hnodup, fun τ hτ hmem => hfresh τ hτ (hsubset hmem)⟩
    · rw [hσ, List.singleton_append, List.nodup_cons]
      have hnotMem : ∀ τ ∈ callSelectors rest, τ ∉ found ∧ τ ≠ σ := fun τ hτ => by
        simpa [not_or] using hfresh τ hτ
      refine ⟨⟨fun hmem => (hnotMem σ hmem).2 rfl, hnodup⟩, ?_⟩
      intro τ hτ
      rcases List.mem_cons.1 hτ with rfl | hτ
      · exact hnew
      · exact (hnotMem τ hτ).1

theorem exists_selector?_of_mem (h : trace s contract found ds = .ok (made, found'))
    (hd : d ∈ ds) : ∃ selector, d.selector? s = .ok selector := by
  induction ds generalizing found made with
  | nil => cases hd
  | cons e ds ih =>
    obtain ⟨r, next, rest, hread, hrest, -⟩ := trace_cons_eq_ok_iff.1 h
    rcases List.mem_cons.1 hd with rfl | hd
    · obtain ⟨selector, hselector, -⟩ := read_eq_ok hread
      exact ⟨selector, hselector⟩
    · exact ih hrest hd

/-- The declarations with a selector are those that can be called from outside. -/
theorem isSome_of_selector? {selector : Option String} (h : d.selector? s = .ok selector) :
    selector.isSome = d.isCallable := by
  cases d with
  | definition base n =>
    obtain ⟨v, hv, h⟩ := Run.except_bind_eq_ok_iff.1 h
    obtain ⟨arguments, -, h⟩ := Run.except_bind_eq_ok_iff.1 h
    have hcallable : (definition base n).isCallable = (!n.name.isEmpty && v.isExternal) := by
      rw [isCallable, visibilityOf_eq_ok_iff.1 hv]
      cases v <;> rfl
    rw [hcallable]
    rcases definedSelector_eq_ok h with ⟨hcall, σ, rfl, -⟩ | ⟨hcall, rfl⟩
    · exact hcall.symm
    · exact hcall.symm
  | stateVariable base n =>
    obtain ⟨entry, -, h⟩ := Run.except_bind_eq_ok_iff.1 h
    obtain ⟨arguments, -, h⟩ := Run.except_bind_eq_ok_iff.1 h
    obtain ⟨σ, -, rfl⟩ := Run.map_eq_ok_iff.1 h
    rfl

theorem mem_callSelectors_of_declared
    (h : trace s contract [] (bases.flatMap (declared s)) = .ok (made, found)) (hc : c ∈ bases)
    (hd : d ∈ declared s c) (hσ : d.selector? s = .ok (some σ)) : σ ∈ callSelectors made := by
  -- of all declarations of the selector the first one makes the function
  obtain ⟨e, he⟩ : ∃ e, (bases.flatMap (declared s)).find?
      (fun e => e.selector? s = .ok (some σ)) = some e :=
    Option.isSome_iff_exists.1
      (List.find?_isSome.2 ⟨d, List.mem_flatMap.2 ⟨c, hc, hd⟩, by simpa using hσ⟩)
  obtain ⟨heselector, pre, post, hsplit, hpre⟩ := List.find?_eq_some_iff_append.1 he
  rw [hsplit] at h
  obtain ⟨f, hf, hcall⟩ := exists_mem_of_first h (by simpa using heselector)
    fun e' he' hdeclared => by simpa [hdeclared] using hpre e' he'
  exact mem_callSelectors_iff.2 ⟨(e, f), hf, hcall⟩

end Selectors

section Inner

theorem isInner_eq_false_of_isCallable (h : d.isCallable) : d.isInner contract = false := by
  cases d with
  | definition base n =>
    rw [isCallable, Bool.and_eq_true_iff, Bool.or_eq_true] at h
    obtain ⟨-, h | h⟩ := h <;> simp [Declaration.isInner, beq_iff_eq.1 h]
  | stateVariable base n => rfl

/-- Only constructors are left out. -/
theorem isEmpty_of_makes_none {selector : Option String} (h : Makes s d selector none) :
    d.node.name.isEmpty ∧ d.isInner contract = false := by
  generalize hr : none = r at h
  cases h with
  | definition _ _ _ _ hf =>
    split at hr
    · next hout =>
      rw [hf, isConstructor_described, Bool.and_eq_true_iff] at hout
      exact ⟨hout.1, by simp [Declaration.isInner, hout.1]⟩
    · cases hr
  | stateVariable _ => cases hr

/-- The function of a definition has the visibility and the kind that the definition states. -/
theorem visibility_of_makes {selector : Option String}
    (h : Makes s (definition base n) selector (some f)) :
    f.isConstructor = n.name.isEmpty ∧ n.string? "visibility" = some f.visibility.text := by
  generalize hr : some f = r at h
  cases h with
  | definition _ _ _ hvisibility hf =>
    split at hr
    · cases hr
    · cases hr
      rw [hf, isConstructor_described]
      exact ⟨rfl, visibilityOf_eq_ok_iff.1 hvisibility⟩

theorem isSome_callSelector?_of_makes {selector : Option String}
    (h : Makes s d selector (some f)) : f.callSelector?.isSome = d.isCallable := by
  cases d with
  | definition base n =>
    obtain ⟨hconstructor, hvisibility⟩ := visibility_of_makes h
    rw [ContractFunction.callSelector?, isCallable, hconstructor, hvisibility]
    cases n.name.isEmpty <;> cases f.visibility <;> rfl
  | stateVariable base n =>
    generalize hr : some f = r at h
    cases h
    cases hr
    rfl

theorem isInner_of_makes {selector : Option String} (contract : String)
    (h : Makes s d selector (some f)) :
    (d.counts contract f && f.isInner) = d.isInner contract := by
  cases d with
  | definition base n =>
    obtain ⟨hconstructor, hvisibility⟩ := visibility_of_makes h
    rw [ContractFunction.isInner, Declaration.isInner, hconstructor, hvisibility, counts]
    cases n.name.isEmpty <;> cases f.visibility <;>
      simp [Visibility.isExternal, Visibility.text]
  | stateVariable base n =>
    generalize hr : some f = r at h
    cases h
    cases hr
    rfl

/-- Reading a declaration gives a function that is called from inside exactly if the declaration
defines one: such functions have no selector that could have been found before. -/
theorem any_isInner_of_read (h : d.read s found = .ok (r, found')) :
    (r.filter (d.counts contract)).any ContractFunction.isInner = d.isInner contract := by
  obtain ⟨selector, hselector, ⟨⟨σ, -, rfl⟩, rfl, -⟩ | ⟨-, hmakes, -⟩⟩ := read_eq_ok h
  · exact (isInner_eq_false_of_isCallable (isSome_of_selector? hselector).symm).symm
  · cases r with
    | none => exact (isEmpty_of_makes_none hmakes).2.symm
    | some f =>
      rw [Option.any_filter, Option.any_some]
      exact isInner_of_makes contract hmakes

/-- The listed functions that are called from inside are those that the base list defines. -/
theorem map_fst_inner (h : trace s contract found ds = .ok (made, found')) :
    (made.filter fun p => p.2.isInner).map Prod.fst = ds.filter (Declaration.isInner contract) :=
  map_fst_filter any_isInner_of_read h

end Inner

section Count

theorem countP_flatMap_eq {α β : Type} {g : α → List β} {p : α → Bool} {q : β → Bool} {as : List α}
    (h : ∀ a ∈ as, (g a).countP q = if p a then 1 else 0) :
    (as.flatMap g).countP q = as.countP p := by
  induction as with
  | nil => rfl
  | cons a as ih =>
    rw [List.flatMap_cons, List.countP_append, List.countP_cons, h a List.mem_cons_self,
      ih fun b hb => h b (List.mem_cons_of_mem a hb), Nat.add_comm]

/-- Of nodes with distinct identifiers one has the identifier of a member. -/
theorem countP_id_eq_one {ns : List Node} (hns : (ns.map Node.id).Nodup) (hn : n ∈ ns) :
    ns.countP (fun m => m.id == n.id) = 1 := by
  have hcount := List.count_eq_one_of_mem hns (List.mem_map_of_mem hn)
  rwa [List.count_eq_countP, List.countP_map] at hcount

theorem eq_of_id_eq {root file : String} {ts : Trees} {m n : Node} (hm : m ∈ ts.nodesOf root file)
    (hn : n ∈ ts.nodesOf root file) (h : m.id = n.id) : m = n :=
  List.inj_on_of_nodup_map (nodup_id_nodesOf ts root file) hm hn h

theorem same_name_iff {b c : BaseContract} :
    (b.file == c.file && b.name == c.name) = (b == c || b == c.namesake) := by
  obtain ⟨file, name, l⟩ := b
  obtain ⟨file', name', l'⟩ := c
  rw [Bool.eq_iff_iff]
  cases l <;> cases l' <;> simp [BaseContract.namesake]

theorem namesake_ne (c : BaseContract) : c.namesake ≠ c := by
  intro h
  have hlibrary := congrArg BaseContract.isLibrary h
  simp [BaseContract.namesake] at hlibrary

/-- A definition belongs to the contract and to its namesake. -/
theorem countP_eq_holders (hbases : bases.Nodup) (hc : c ∈ bases) :
    bases.countP (fun b => b.file == c.file && b.name == c.name) = holders bases c := by
  have hsplit : bases.countP (fun b => b.file == c.file && b.name == c.name) =
      bases.count c + bases.count c.namesake := by
    simp only [same_name_iff]
    clear hbases hc
    induction bases with
    | nil => rfl
    | cons b bases ih =>
      rw [List.countP_cons, List.count_cons, List.count_cons, ih]
      by_cases hb : b = c
      · have hne : (c == c.namesake) = false := beq_false_of_ne (namesake_ne c).symm
        simp [hb, hne]
        omega
      · simp [beq_false_of_ne hb]
        omega
  rw [hsplit, hbases.count, hbases.count, if_pos hc, holders]
  split <;> rfl

theorem contract_of_isFunctionDefinition {name : String} (h : isFunctionDefinition name n) :
    n.contract = some name := by
  simp only [isFunctionDefinition, Bool.and_eq_true, beq_iff_eq] at h
  exact h.1.1.2

/-- Only the definition itself is at its place, held by a contract with its file and name. -/
theorem isDefinitionAt_definition_iff (hn : n ∈ s.trees.nodesOf s.root c.file)
    (hdefinition : isFunctionDefinition c.name n) {b : BaseContract} {m : Node}
    (hm : m ∈ (s.trees.nodesOf s.root b.file).filter (isFunctionDefinition b.name)) :
    (definition b m).isDefinitionAt c.file n.id ↔
      (b.file = c.file ∧ b.name = c.name) ∧ m = n := by
  obtain ⟨hm, hcontract⟩ := List.mem_filter.1 hm
  rw [isDefinitionAt, Bool.and_eq_true_iff, beq_iff_eq, beq_iff_eq]
  constructor
  · rintro ⟨hfile, hid⟩
    rw [hfile] at hm
    obtain rfl := eq_of_id_eq hm hn hid
    have hnames := (contract_of_isFunctionDefinition hcontract).symm.trans
      (contract_of_isFunctionDefinition hdefinition)
    exact ⟨⟨hfile, Option.some.inj hnames⟩, rfl⟩
  · rintro ⟨⟨hfile, -⟩, rfl⟩
    exact ⟨hfile, rfl⟩

/-- A contract holds a definition if it has the file and the name that the definition is under. -/
theorem countP_declared (hn : n ∈ s.trees.nodesOf s.root c.file)
    (hdefinition : isFunctionDefinition c.name n) (b : BaseContract) :
    ((declared s b).filter (Declaration.isInner contract)).countP
        (isDefinitionAt c.file n.id) =
      if b.file == c.file && b.name == c.name && (definition c n).isInner contract then 1
      else 0 := by
  have hvariables : ∀ ns : List Node, (ns.map (stateVariable b)).countP
      (fun d => d.isDefinitionAt c.file n.id && d.isInner contract) = 0 := by
    intro ns
    simp [List.countP_eq_zero, isDefinitionAt]
  rw [List.countP_filter, declared, List.countP_append, hvariables, Nat.add_zero, List.countP_map]
  split
  · next hholds =>
    simp only [Bool.and_eq_true, beq_iff_eq] at hholds
    obtain ⟨⟨hfile, hname⟩, hinner⟩ := hholds
    have hmem : n ∈ (s.trees.nodesOf s.root b.file).filter (isFunctionDefinition b.name) := by
      rw [hfile, hname]
      exact List.mem_filter.2 ⟨hn, hdefinition⟩
    rw [← countP_id_eq_one
      ((nodup_id_nodesOf s.trees s.root b.file).sublist (List.filter_sublist.map Node.id)) hmem]
    refine List.countP_congr fun m hm => ?_
    rw [Function.comp_apply, Bool.and_eq_true_iff, isDefinitionAt_definition_iff hn hdefinition hm,
      beq_iff_eq]
    constructor
    · rintro ⟨⟨-, rfl⟩, -⟩
      rfl
    · intro hid
      obtain rfl := eq_of_id_eq (List.mem_of_mem_filter hm) (List.mem_of_mem_filter hmem) hid
      refine ⟨⟨⟨hfile, hname⟩, rfl⟩, ?_⟩
      simpa [Declaration.isInner, hfile, hname] using hinner
  · next hholds =>
    rw [List.countP_eq_zero]
    intro m hm hboth
    rw [Function.comp_apply, Bool.and_eq_true_iff,
      isDefinitionAt_definition_iff hn hdefinition hm] at hboth
    obtain ⟨⟨⟨hfile, hname⟩, rfl⟩, hinner⟩ := hboth
    refine hholds ?_
    simpa [Declaration.isInner, hfile, hname] using hinner

/-- A definition that is called from inside is listed once for each contract that it belongs to, if
it counts for them. -/
theorem timesListed_eq
    (h : trace s contract [] (bases.flatMap (declared s)) = .ok (made, found))
    (hbases : bases.Nodup) (hc : c ∈ bases) (hn : n ∈ s.trees.nodesOf s.root c.file)
    (hdefinition : isFunctionDefinition c.name n) (hname : n.name ≠ "")
    (hvisibility : n.string? "visibility" = some "internal" ∨
      n.string? "visibility" = some "private") :
    timesListed made c.file n.id =
      if (definition c n).isInner contract then holders bases c else 0 := by
  have hinner : timesListed made c.file n.id =
      ((bases.flatMap (declared s)).filter (Declaration.isInner contract)).countP
        (isDefinitionAt c.file n.id) := by
    rw [← map_fst_inner h, List.countP_map, List.countP_filter]
    refine List.countP_congr fun p hp => ?_
    obtain ⟨σ, hmakes, -⟩ := makes_of_mem h hp
    obtain ⟨d, f⟩ := p
    suffices hat : d.isDefinitionAt c.file n.id → f.isInner by simpa using hat
    intro hat
    cases d with
    | definition b m =>
      rw [isDefinitionAt, Bool.and_eq_true_iff, beq_iff_eq, beq_iff_eq] at hat
      obtain ⟨hfile, hid⟩ := hat
      obtain ⟨b', -, hd⟩ := List.mem_flatMap.1 (declaration_mem_of_mem h hp)
      obtain rfl := base_of_mem_declared hd
      have hm := node_mem_of_mem_declared hd
      simp only [Declaration.base, Declaration.node, hfile] at hm
      obtain rfl := eq_of_id_eq hm hn hid
      obtain ⟨hconstructor, hf⟩ := visibility_of_makes hmakes
      rw [hf] at hvisibility
      have hfalse : m.name.isEmpty = false := by simpa using hname
      rw [ContractFunction.isInner, hconstructor, hfalse]
      cases hv : f.visibility <;> simp [hv, Visibility.text] at hvisibility ⊢ <;> rfl
    | stateVariable b m => cases hat
  rw [hinner, List.filter_flatMap,
    countP_flatMap_eq fun b _ => countP_declared hn hdefinition b]
  cases (definition c n).isInner contract with
  | true => simpa using countP_eq_holders hbases hc
  | false => simp

end Count

/-- A collection lists the union of what the contracts of its base list declare: one function for
each selector, one for each definition that is called from inside and contract it belongs to, and
constructors. -/
theorem collectAll_listsUnion (hlang : s.lang = .solidity)
    (h : (collectAll s compiled contract).run.run ix = (.ok fs, ix')) :
    ∃ bases made, Traced s compiled contract ix bases made ∧ fs = made.map Prod.snd ∧
      ListsUnion s contract bases made := by
  obtain ⟨bases, made, htraced, hfs⟩ := exists_traced_of_collectAll hlang h
  obtain ⟨found, hmade⟩ := htraced.made_eq_ok
  obtain ⟨_, _, -, hnodup⟩ := htraced.exists_eq_cons
  refine ⟨bases, made, htraced, hfs, ?_⟩
  constructor
  · exact (nodup_callSelectors hmade).1
  · intro c hc d hd hcallable
    obtain ⟨selector, hselector⟩ :=
      exists_selector?_of_mem hmade (List.mem_flatMap.2 ⟨c, hc, hd⟩)
    rw [← isSome_of_selector? hselector] at hcallable
    obtain ⟨σ, rfl⟩ := Option.isSome_iff_exists.1 hcallable
    exact ⟨σ, hselector, mem_callSelectors_of_declared hmade hc hd hselector⟩
  · intro c hc n hn hdefinition hname hinternal
    have htimes := timesListed_eq hmade hnodup hc hn hdefinition hname (.inl hinternal)
    simpa [Declaration.isInner, hname, hinternal] using htimes
  · intro c hc n hn hdefinition hname hprivate
    have htimes := timesListed_eq hmade hnodup hc hn hdefinition hname (.inr hprivate)
    simpa [Declaration.isInner, hname, hprivate] using htimes
  · rintro ⟨d, f⟩ hp
    obtain ⟨selector, hmakes, hcounts⟩ := makes_of_mem hmade hp
    refine ⟨declaration_mem_of_mem hmade hp, ⟨selector, hmakes⟩, ?_⟩
    have hinner := isInner_of_makes contract hmakes
    have hcallable := isSome_callSelector?_of_makes hmakes
    rw [hcounts, Bool.true_and] at hinner
    cases hconstructor : f.isConstructor with
    | true => exact .inl rfl
    | false =>
      cases hexternal : f.visibility.isExternal with
      | true =>
        have hsome : f.callSelector?.isSome := by
          simp [ContractFunction.callSelector?, hconstructor, hexternal]
        exact .inr (.inl ⟨hsome, hcallable ▸ hsome⟩)
      | false =>
        have hf : f.isInner := by simp [ContractFunction.isInner, hconstructor, hexternal]
        exact .inr (.inr ⟨hf, hinner ▸ hf⟩)

section Listings

/-! Contracts of one file, listed for the last one or for the one that shares its name. -/

def variableNode (id : Nat) (contract name selector : String) : Node where
  id := id
  kind := "VariableDeclaration"
  contract := contract
  lang := .solidity
  fields := [("id", .ofNat id), ("name", name), ("visibility", "public"),
    ("stateVariable", .bool true), ("functionSelector", selector)]

def listing (nodes : List Node) : Subject :=
  .ofNodes "/L.sol" nodes {
    interface :=
      [⟨"function", some "f", [], [], none, none⟩, ⟨"function", some "x", [], [], none, none⟩]
    storageLayout := none
    machine := none }

/-- `Heir is Base`; both have functions of every kind, and the heir overrides one. -/
def heirAndBase : List Node :=
  [.ofContract 1 "Base" [], .ofFunction 10 "Base" "g" "internal" [],
    .ofFunction 11 "Base" "p" "private" [],
    .ofFunction 12 "Base" "f" "external" [("functionSelector", "26121ff0")],
    .ofContract 2 "Heir" [1], .ofFunction 20 "Heir" "p" "private" [],
    .ofFunction 21 "Heir" "f" "public" [("functionSelector", "26121ff0")],
    variableNode 22 "Heir" "x" "0c55699c"]

def internalNode : Node := .ofFunction 10 "C" "g" "internal" []

/-- A contract that inherits from a library of its own name. -/
def namesakes : List Node := [.ofContract 1 "C" [2], .ofLibrary 2 "C", internalNode]

end Listings

/-- The heir's functions and getter come first, then what the base adds. -/
theorem listsUnion_heirAndBase : ∃ fs ix' bases made,
    (collectAll (listing heirAndBase) "/L.sol" "Heir").run.run (.ofNodes "/L.sol" heirAndBase) =
      (.ok fs, ix') ∧
    Traced (listing heirAndBase) "/L.sol" "Heir" (.ofNodes "/L.sol" heirAndBase) bases made ∧
    fs = made.map Prod.snd ∧ fs.map ContractFunction.nodeId = [some 20, some 21, none, some 10] ∧
    ListsUnion (listing heirAndBase) "Heir" bases made := by
  have hrun : ((collectAll (listing heirAndBase) "/L.sol" "Heir").run.run
      (.ofNodes "/L.sol" heirAndBase)).1.toOption.map (fun fs => fs.map ContractFunction.nodeId) =
        some [some 20, some 21, none, some 10] := by decide +kernel
  obtain ⟨fs, ix', hfs, hids⟩ := Run.exists_of_map_eq_some hrun
  obtain ⟨bases, made, htraced, heq, hunion⟩ := collectAll_listsUnion rfl hfs
  exact ⟨fs, ix', bases, made, hfs, htraced, heq, hids, hunion⟩

/-- A definition of a contract that inherits from its namesake is listed twice. -/
theorem not_listedOnce_namesakes : ∃ fs ix' bases made,
    (collectAll (listing namesakes) "/L.sol" "C").run.run (.ofNodes "/L.sol" namesakes) =
      (.ok fs, ix') ∧
    Traced (listing namesakes) "/L.sol" "C" (.ofNodes "/L.sol" namesakes) bases made ∧
    fs = made.map Prod.snd ∧ fs.map ContractFunction.nodeId = [some 10, some 10] ∧
    ¬ ∀ c ∈ bases, ∀ n ∈ (listing namesakes).trees.nodesOf "/L.sol" c.file,
      isFunctionDefinition c.name n → n.name ≠ "" → n.string? "visibility" = some "internal" →
        timesListed made c.file n.id = 1 := by
  have hrun : ((collectAll (listing namesakes) "/L.sol" "C").run.run
      (.ofNodes "/L.sol" namesakes)).1.toOption.map (fun fs => fs.map ContractFunction.nodeId) =
        some [some 10, some 10] := by decide +kernel
  obtain ⟨fs, ix', hfs, hids⟩ := Run.exists_of_map_eq_some hrun
  obtain ⟨bases, made, htraced, heq⟩ := exists_traced_of_collectAll rfl hfs
  refine ⟨fs, ix', bases, made, hfs, htraced, heq, hids, fun honce => ?_⟩
  obtain rfl := htraced.bases_eq [⟨"/L.sol", "C", false⟩, ⟨"/L.sol", "C", true⟩]
    (by decide +kernel)
  obtain ⟨found, hmade⟩ := htraced.made_eq_ok
  have hmem : internalNode ∈ (listing namesakes).trees.nodesOf "/L.sol" "/L.sol" := by
    rw [listing, Subject.ofNodes, SyntaxIndex.nodesOf_ofNodes]
    exact List.mem_of_getElem? (i := 2) rfl
  have hdefinition : isFunctionDefinition "C" internalNode := by decide +kernel
  have hname : internalNode.name ≠ "" := by decide +kernel
  have hinternal : internalNode.string? "visibility" = some "internal" := by decide +kernel
  have hone := honce _ List.mem_cons_self internalNode hmem hdefinition hname hinternal
  have htwo := timesListed_eq hmade (by decide) List.mem_cons_self hmem hdefinition hname
    (.inl hinternal)
  have hholders : (if (definition ⟨"/L.sol", "C", false⟩ internalNode).isInner "C" then
      holders [⟨"/L.sol", "C", false⟩, ⟨"/L.sol", "C", true⟩] ⟨"/L.sol", "C", false⟩
      else 0) = 2 := by decide +kernel
  rw [hholders] at htwo
  omega

end Catalog

end ContractModel
