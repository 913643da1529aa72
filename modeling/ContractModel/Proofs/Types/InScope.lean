import ContractModel.Proofs.Effects
import ContractModel.Proofs.Syntax.BaseClosure
import ContractModel.Proofs.Syntax.Imports
import Mathlib.Data.List.Forall2
import Mathlib.Data.List.Nodup

/-! # Types in scope of a contract

The types of a contract are resolved from definitions that are collected in two ways: outside of
contracts in the imported files, and inside of contracts in the files that hold its bases. There a
definition counts if its contract is a library or is named like some base. So libraries in other
files are passed over, and a contract with the name of a base that stands elsewhere is taken for it.
Where neither happens the types are those in scope, each once.
-/

namespace ContractModel

variable {ts : Trees} {root compiled file contract : String} {n : Node} {bases : List BaseContract}

namespace SyntaxIndex

/-- The definitions of types that a file has outside of contracts. -/
def definitionsOutside (ts : Trees) (root file : String) : List Node :=
  (ts.nodesOf root file).filter fun n => n.contract.isNone && n.isTypeDefinition

/-- The index has the trees, and what it remembers of a compilation is what is found in them. -/
structure IsCurrent (ts : Trees) (root : String) (ix : SyntaxIndex) : Prop where
  trees : ix.trees = ts
  definitions : ∀ e ∈ ix.contractDefinitions.entries, e.1.1 = root →
    e.2 = ts.findContract root e.1.2.1 e.1.2.2
  types : ∀ e ∈ ix.importedTypes.entries, e.1.1 = root →
    (definitionsOutside ts root e.1.2).mapM (SourceType.ofDefinition ts root) = .ok e.2

/-- An index that remembers nothing is current. -/
theorem isCurrent_of_empty {ix : SyntaxIndex} (hdefinitions : ix.contractDefinitions.entries = [])
    (htypes : ix.importedTypes.entries = []) : IsCurrent ix.trees root ix where
  trees := rfl
  definitions := by simp [hdefinitions]
  types := by simp [htypes]

theorem ensures_trees : Run.Ensures (IsCurrent ts root) Query.trees (· = ts) := by
  rintro ix _ _ hix ⟨⟩
  exact ⟨hix, hix.trees⟩

theorem ensures_contractReference :
    Run.Ensures (IsCurrent ts root) (Query.contractReference root compiled contract)
      (· = ts.findContract root compiled contract) := by
  intro ix found ix' hix h
  unfold Query.contractReference at h
  rw [Run.run_get_bind] at h
  dsimp only at h
  have hpeek := RecentCache.fst_get? ix.contractDefinitions (root, compiled, contract)
  rcases hget : ix.contractDefinitions.get? (root, compiled, contract) with ⟨_ | v, cache⟩
  · rw [hget] at h
    cases h
    rw [hix.trees]
    refine ⟨⟨rfl, fun e he hroot => ?_, hix.types⟩, rfl⟩
    rcases RecentCache.mem_of_mem_insert he with rfl | he
    · rfl
    · exact hix.definitions e he hroot
  · rw [hget] at h hpeek
    cases h
    have hkept : ∀ e ∈ cache.entries, e ∈ ix.contractDefinitions.entries := fun e he =>
      RecentCache.mem_of_mem_get? (k := (root, compiled, contract)) (by rwa [hget])
    refine ⟨⟨hix.trees, fun e he => hix.definitions e (hkept e he), hix.types⟩, ?_⟩
    exact hix.definitions _ (RecentCache.mem_of_peek? hpeek.symm) rfl

theorem ensures_ofExcept {α : Type} (r : Except Error α) :
    Run.Ensures (IsCurrent ts root) (Query.ofExcept r) (r = .ok ·) := by
  intro ix a ix' hix h
  obtain ⟨hr, rfl⟩ := Run.ofExcept_eq_ok_iff.1 h
  exact ⟨hix, hr⟩

theorem ensures_contractDefinition :
    Run.Ensures (IsCurrent ts root) (Query.contractDefinition root compiled contract)
      (Inheritance.definitionOf ts root compiled contract = some ·) := by
  refine ensures_contractReference.bind fun reference hreference => ?_
  refine ensures_trees.bind fun ts' hts => ?_
  subst hreference hts
  rw [Inheritance.definitionOf]
  dsimp only
  cases (ts'.findContract root compiled contract).bind fun id =>
      (ts'.unit? root compiled).bind fun u => u.get? id with
  | none => exact Run.ensures_throw _
  | some n => exact Run.ensures_pure rfl

/-- What the trees list as the bases of a contract. -/
def IsBaseList (ts : Trees) (root compiled contract : String) (bases : List BaseContract) : Prop :=
  ∃ n, Inheritance.definitionOf ts root compiled contract = some n ∧
    Inheritance.basesOf ts root ⟨compiled, contract, n.isLibrary⟩ n = .ok bases

theorem ensures_baseContracts :
    Run.Ensures (IsCurrent ts root) (Query.baseContracts root compiled contract)
      (IsBaseList ts root compiled contract) := by
  refine ensures_contractDefinition.bind fun n hn => ?_
  refine ensures_trees.bind fun ts' hts => ?_
  subst hts
  exact (ensures_ofExcept _).imp fun bases hbases => ⟨n, hn, hbases⟩

theorem ensures_fileTypes :
    Run.Ensures (IsCurrent ts root) (Query.fileTypes root file)
      ((definitionsOutside ts root file).mapM (SourceType.ofDefinition ts root) = .ok ·) := by
  refine ensures_trees.bind fun ts' hts => ?_
  subst hts
  exact ensures_ofExcept _

theorem ensures_importedTypes :
    Run.Ensures (IsCurrent ts root)
      (Query.importedTypes root file (Query.fileTypes root file))
      ((definitionsOutside ts root file).mapM (SourceType.ofDefinition ts root) = .ok ·) := by
  intro ix types ix' hix h
  unfold Query.importedTypes at h
  rw [Run.run_get_bind] at h
  have hpeek := RecentCache.fst_get? ix.importedTypes (root, file)
  rcases hget : ix.importedTypes.get? (root, file) with ⟨_ | v, cache⟩
  · rw [hget] at h
    obtain ⟨types', t, hcollect, h⟩ := Run.bind_eq_ok_iff.1 h
    obtain ⟨ht, htypes⟩ := ensures_fileTypes ix types' t hix hcollect
    cases h
    refine ⟨⟨ht.trees, ht.definitions, fun e he hroot => ?_⟩, htypes⟩
    rcases RecentCache.mem_of_mem_insert he with rfl | he
    · exact htypes
    · exact ht.types e he hroot
  · rw [hget] at h hpeek
    cases h
    have hkept : ∀ e ∈ cache.entries, e ∈ ix.importedTypes.entries := fun e he =>
      RecentCache.mem_of_mem_get? (k := (root, file)) (by rwa [hget])
    refine ⟨⟨hix.trees, hix.definitions, fun e he => hix.types e (hkept e he)⟩, ?_⟩
    exact hix.types _ (RecentCache.mem_of_peek? hpeek.symm) rfl

end SyntaxIndex

namespace Scope

open SyntaxIndex

section Collected

/-- The contract around the node is a library. -/
def isInLibrary (ts : Trees) (root file : String) (n : Node) : Bool :=
  ((n.contract.bind (ts.findContract root file)).map (ts.isLibrary root file)).getD false

/-- The contract around the node is named like a base. -/
def hasBaseName (bases : List BaseContract) (n : Node) : Bool :=
  bases.any fun b => n.contract == some b.name

/-- The definitions of types that a file has in what is named like a base, or in libraries. -/
def definitionsOwned (ts : Trees) (root : String) (bases : List BaseContract) (file : String) :
    List Node :=
  (ts.nodesOf root file).filter fun n =>
    n.isTypeDefinition && (hasBaseName bases n || isInLibrary ts root file n)

/-- The definitions with the file that they stand in. -/
def inFile (file : String) (ns : List Node) : List (String × Node) := ns.map fun n => (file, n)

/-- The definitions that are collected for a contract. -/
def collected (ts : Trees) (root compiled : String) (bases : List BaseContract) :
    List (String × Node) :=
  (ts.importedFiles root compiled).flatMap
      (fun file => inFile file (definitionsOutside ts root file)) ++
    (SortedMap.distinct (bases.map BaseContract.file)).flatMap
      fun file => inFile file (definitionsOwned ts root bases file)

/-- The type is the one that the definition gives. -/
def Resolves (ts : Trees) (root : String) (d : String × Node) (t : SourceType) : Prop :=
  SourceType.ofDefinition ts root d.2 = .ok t

theorem ensures_ownedType (n : Node) :
    Run.Ensures (IsCurrent ts root) (Query.ownedType root file bases n)
      (List.Forall₂ (Resolves ts root) (if n.isTypeDefinition &&
        (hasBaseName bases n || isInLibrary ts root file n) then [(file, n)] else [])) := by
  unfold Query.ownedType hasBaseName isInLibrary
  cases htype : n.isTypeDefinition with
  | false => exact Run.ensures_pure (by simp)
  | true =>
    cases howner : n.contract with
    | none => exact Run.ensures_pure (by simp)
    | some owner =>
      refine ensures_contractReference.bind fun reference hreference => ?_
      refine ensures_trees.bind fun ts' hts => ?_
      subst hreference hts
      have hname : (bases.any fun b => some owner == some b.name) =
          bases.any fun b => b.name == owner :=
        congrArg bases.any (funext fun b => BEq.comm)
      rw [hname, Bool.true_and, Option.bind_some]
      dsimp only
      split
      · refine (ensures_ofExcept _).bind fun t ht => ?_
        exact Run.ensures_pure (List.Forall₂.cons ht List.Forall₂.nil)
      · exact Run.ensures_pure List.Forall₂.nil

/-- Results that are put together where something holds are those of what it holds of. -/
theorem forall₂_filter_flatten {α β γ : Type} {R : γ → β → Prop} {p : α → Bool} {f : α → γ}
    {as : List α} {bss : List (List β)}
    (h : List.Forall₂ (fun a bs => List.Forall₂ R (if p a then [f a] else []) bs) as bss) :
    List.Forall₂ R ((as.filter p).map f) bss.flatten := by
  induction h with
  | nil => exact .nil
  | @cons a bs as bss ha _ ih =>
    rw [List.filter_cons, List.flatten_cons]
    split at ha
    · next hp =>
      rw [if_pos hp, List.map_cons]
      exact List.rel_append ha ih
    · next hp =>
      rw [if_neg hp]
      exact List.rel_append ha ih

theorem forall₂_flatMap_flatten {α β γ : Type} {R : γ → β → Prop} {f : α → List γ} {as : List α}
    {bss : List (List β)} (h : List.Forall₂ (fun a bs => List.Forall₂ R (f a) bs) as bss) :
    List.Forall₂ R (as.flatMap f) bss.flatten := by
  rw [List.flatMap_def]
  exact List.rel_flatten (List.forall₂_map_left_iff.2 h)

theorem ensures_sourceTypes :
    Run.Ensures (IsCurrent ts root) (Query.sourceTypes root compiled contract .solidity)
      fun types => ∃ bases, IsBaseList ts root compiled contract bases ∧
        List.Forall₂ (Resolves ts root) (collected ts root compiled bases) types := by
  unfold Query.sourceTypes
  refine ensures_baseContracts.bind fun bases hbases => ?_
  refine ensures_trees.bind fun ts' hts => ?_
  subst hts
  refine (Run.Ensures.mapM (fun file => ensures_importedTypes) _).bind fun ofFiles hfiles => ?_
  refine (Run.Ensures.mapM (fun file => Run.Ensures.mapM ensures_ownedType _) _).bind
    fun ofBases hofBases => ?_
  refine Run.ensures_pure ⟨bases, hbases, List.rel_append ?_ ?_⟩
  · refine forall₂_flatMap_flatten (hfiles.imp fun file types htypes => ?_)
    rw [inFile, List.forall₂_map_left_iff]
    exact Run.forall₂_of_mapM_eq_ok htypes
  · have hbaseFiles : (SortedMap.ofList (bases.map fun b => (b.file, ()))).keys =
        SortedMap.distinct (bases.map BaseContract.file) := by
      rw [SortedMap.distinct, List.map_map]
      rfl
    rw [hbaseFiles] at hofBases
    refine forall₂_flatMap_flatten (List.forall₂_map_right_iff.2 (hofBases.imp ?_))
    exact fun file types htypes => forall₂_filter_flatten htypes

end Collected

section Members

variable {d : String × Node}

theorem mem_inFile_iff {ns : List Node} : d ∈ inFile file ns ↔ d.1 = file ∧ d.2 ∈ ns := by
  obtain ⟨file', n⟩ := d
  simp [inFile, eq_comm, and_comm]

/-- Where types are looked for: outside of contracts in the imported files, and in the files of
bases in what is named like some base or is a library. -/
structure IsCollected (ts : Trees) (root compiled : String) (bases : List BaseContract)
    (d : String × Node) : Prop where
  mem : d.2 ∈ ts.nodesOf root d.1
  isType : d.2.isTypeDefinition
  place : d.2.contract = none ∧ d.1 ∈ ts.importedFiles root compiled ∨
    d.1 ∈ bases.map BaseContract.file ∧ (hasBaseName bases d.2 ∨ isInLibrary ts root d.1 d.2)

theorem mem_collected_iff :
    d ∈ collected ts root compiled bases ↔ IsCollected ts root compiled bases d := by
  have hselect {files : List String} {select : String → List Node} :
      (d ∈ files.flatMap fun file => inFile file (select file)) ↔
        d.1 ∈ files ∧ d.2 ∈ select d.1 := by
    simp only [List.mem_flatMap, mem_inFile_iff]
    constructor
    · rintro ⟨_, hfile, rfl, hmem⟩
      exact ⟨hfile, hmem⟩
    · rintro ⟨hfile, hmem⟩
      exact ⟨_, hfile, rfl, hmem⟩
  rw [collected, List.mem_append, hselect, hselect, SortedMap.mem_distinct_iff, definitionsOutside,
    definitionsOwned, List.mem_filter, List.mem_filter]
  simp only [Bool.and_eq_true, Bool.or_eq_true, Option.isNone_iff_eq_none]
  constructor
  · rintro (⟨hfile, hmem, hnone, htype⟩ | ⟨hfile, hmem, htype, howned⟩)
    · exact ⟨hmem, htype, .inl ⟨hnone, hfile⟩⟩
    · exact ⟨hmem, htype, .inr ⟨hfile, howned⟩⟩
  · rintro ⟨hmem, htype, ⟨hnone, hfile⟩ | ⟨hfile, howned⟩⟩
    · exact .inl ⟨hfile, hmem, hnone, htype⟩
    · exact .inr ⟨hfile, hmem, htype, howned⟩

theorem nodup_flatMap_inFile {files : List String} (hfiles : files.Nodup)
    {select : String → List Node} (h : ∀ file, (select file).Nodup) :
    (files.flatMap fun file => inFile file (select file)).Nodup := by
  refine List.nodup_flatMap.2 ⟨fun file _ => ?_, hfiles.imp fun hne d hd hd' => ?_⟩
  · exact (h file).map fun n n' heq => (Prod.ext_iff.1 heq).2
  · exact hne ((mem_inFile_iff.1 hd).1.symm.trans (mem_inFile_iff.1 hd').1)

theorem nodup_collected : (collected ts root compiled bases).Nodup := by
  have hnodes (file : String) : (ts.nodesOf root file).Nodup :=
    (Inheritance.nodup_id_nodesOf ts root file).of_map
  refine List.nodup_append'.2 ⟨?_, ?_, fun d hd hd' => ?_⟩
  · exact nodup_flatMap_inFile (SortedMap.nodup_keys _) fun file => (hnodes file).filter _
  · exact nodup_flatMap_inFile (SortedMap.nodup_keys _) fun file => (hnodes file).filter _
  · -- a definition outside of contracts has no owner
    obtain ⟨file, -, hd⟩ := List.mem_flatMap.1 hd
    obtain ⟨file', -, hd'⟩ := List.mem_flatMap.1 hd'
    have houtside := (List.mem_filter.1 (mem_inFile_iff.1 hd).2).2
    have howned := (List.mem_filter.1 (mem_inFile_iff.1 hd').2).2
    simp only [Bool.and_eq_true, Option.isNone_iff_eq_none] at houtside
    simp [hasBaseName, isInLibrary, houtside.1] at howned

end Members

section Documented

open Imports

/-- The contract around the node is the base of this name in this file. -/
def IsInBase (bases : List BaseContract) (file : String) (n : Node) : Prop :=
  ∃ b ∈ bases, b.file = file ∧ n.contract = some b.name

instance : Decidable (IsInBase bases file n) :=
  inferInstanceAs (Decidable (∃ b ∈ bases, b.file = file ∧ n.contract = some b.name))

/-- A contract can name the types that imported files define outside of contracts or in libraries,
and those that its bases define. -/
structure InScope (ts : Trees) (root compiled : String) (bases : List BaseContract)
    (d : String × Node) : Prop where
  mem : d.2 ∈ ts.nodesOf root d.1
  isType : d.2.isTypeDefinition
  place : d.2.contract = none ∧ Reaches ts root compiled d.1 ∨ IsInBase bases d.1 d.2 ∨
    isInLibrary ts root d.1 d.2 ∧ Reaches ts root compiled d.1

/-- The files of a compilation in which the types in scope are looked for in the right places. -/
structure WellArranged (ts : Trees) (root compiled : String) (bases : List BaseContract) :
    Prop where
  /-- The imports of files with types outside of contracts are followed. -/
  imports : ∀ file, ∀ n ∈ ts.nodesOf root file, n.isTypeDefinition → n.contract = none →
    (file ∈ ts.importedFiles root compiled ↔ Reaches ts root compiled file)
  /-- An imported library with types has a base in its file. -/
  libraries : ∀ file, ∀ n ∈ ts.nodesOf root file, n.isTypeDefinition →
    isInLibrary ts root file n → Reaches ts root compiled file →
      file ∈ bases.map BaseContract.file
  /-- What is named like a base, in the file of a base, is a base or an imported library. -/
  namesakes : ∀ b ∈ bases, ∀ n ∈ ts.nodesOf root b.file, n.isTypeDefinition →
    hasBaseName bases n → IsInBase bases b.file n ∨
      isInLibrary ts root b.file n ∧ Reaches ts root compiled b.file
  /-- A library in the file of a base is a base or imported. -/
  reached : ∀ b ∈ bases, ∀ n ∈ ts.nodesOf root b.file, n.isTypeDefinition →
    isInLibrary ts root b.file n → IsInBase bases b.file n ∨ Reaches ts root compiled b.file

theorem IsInBase.hasBaseName (h : IsInBase bases file n) : hasBaseName bases n := by
  obtain ⟨b, hb, -, howner⟩ := h
  exact List.any_eq_true.2 ⟨b, hb, by rw [howner]; exact BEq.rfl⟩

theorem contract_ne_none_of_hasBaseName (h : hasBaseName bases n) : n.contract ≠ none := by
  intro hnone
  rw [hasBaseName, hnone] at h
  simp at h

theorem contract_ne_none_of_isInLibrary (h : isInLibrary ts root file n) : n.contract ≠ none := by
  intro hnone
  rw [isInLibrary, hnone] at h
  cases h

/-- In Solidity, where the contracts of a file have different names, the library is the one that the
file defines. -/
theorem isInLibrary_iff (hdist : Inheritance.Distinguished ts root)
    (hsolidity : ∀ m ∈ ts.nodesOf root file, m.lang = .solidity) :
    isInLibrary ts root file n ↔ ∃ owner, n.contract = some owner ∧
      ∃ m ∈ ts.nodesOf root file, m.isContractDefinition ∧ m.name? = some owner ∧ m.isLibrary := by
  have hlibrary {m : Node} (hm : m ∈ ts.nodesOf root file) :
      ts.isLibrary root file m.id = m.isLibrary := by
    obtain ⟨t, ht, hmem⟩ := Inheritance.mem_nodesOf_iff.1 hm
    have hunit : ts.unit? root file = some t := SortedMap.get?_eq_some_iff.2 ht
    rw [Trees.isLibrary, hunit, Option.bind_some, FlatTree.get?_of_mem hmem]
    rfl
  constructor
  · intro h
    obtain ⟨owner, howner⟩ := Option.ne_none_iff_exists'.1 (contract_ne_none_of_isInLibrary h)
    refine ⟨owner, howner, ?_⟩
    rw [isInLibrary, howner, Option.bind_some] at h
    cases hfound : ts.findContract root file owner with
    | none =>
      rw [hfound] at h
      cases h
    | some id =>
      obtain ⟨m, hfind, rfl⟩ := Option.map_eq_some_iff.1 hfound
      have hm := List.mem_of_find?_eq_some hfind
      have hp := List.find?_some hfind
      rw [hfound, Option.map_some, Option.getD_some, hlibrary hm] at h
      rw [hsolidity m hm] at hp
      simp only [Bool.and_eq_true, Bool.or_eq_true, beq_iff_eq, reduceCtorEq, false_or] at hp
      exact ⟨m, hm, hp.1, hp.2, h⟩
  · rintro ⟨owner, howner, m, hm, hcontract, hname, h⟩
    rw [isInLibrary, howner, Option.bind_some,
      Inheritance.findContract_eq_some hdist hsolidity hm hcontract hname, Option.map_some,
      Option.getD_some, hlibrary hm, h]

theorem WellArranged.isCollected_iff (h : WellArranged ts root compiled bases)
    (d : String × Node) :
    IsCollected ts root compiled bases d ↔ InScope ts root compiled bases d := by
  constructor
  · rintro ⟨hmem, htype, ⟨hnone, hfile⟩ | ⟨hfile, howned⟩⟩
    · exact ⟨hmem, htype, .inl ⟨hnone, (h.imports d.1 d.2 hmem htype hnone).1 hfile⟩⟩
    · obtain ⟨b, hb, hfile⟩ := List.mem_map.1 hfile
      refine ⟨hmem, htype, .inr ?_⟩
      rw [← hfile] at hmem howned ⊢
      rcases howned with hname | hlibrary
      · exact h.namesakes b hb d.2 hmem htype hname
      · exact (h.reached b hb d.2 hmem htype hlibrary).imp_right fun hreached =>
          ⟨hlibrary, hreached⟩
  · rintro ⟨hmem, htype, ⟨hnone, hreached⟩ | hbase | ⟨hlibrary, hreached⟩⟩
    · exact ⟨hmem, htype, .inl ⟨hnone, (h.imports d.1 d.2 hmem htype hnone).2 hreached⟩⟩
    · have hname := hbase.hasBaseName
      obtain ⟨b, hb, hfile, -⟩ := hbase
      exact ⟨hmem, htype, .inr ⟨List.mem_map.2 ⟨b, hb, hfile⟩, .inl hname⟩⟩
    · exact ⟨hmem, htype, .inr ⟨h.libraries d.1 d.2 hmem htype hlibrary hreached, .inr hlibrary⟩⟩

/-- Types are looked for in the right places exactly where the files are well arranged. -/
theorem wellArranged_iff :
    (∀ d, IsCollected ts root compiled bases d ↔ InScope ts root compiled bases d) ↔
      WellArranged ts root compiled bases := by
  refine ⟨fun h => ?_, WellArranged.isCollected_iff⟩
  have hfound {file : String} {n : Node} (hscope : InScope ts root compiled bases (file, n)) :=
    ((h (file, n)).2 hscope).place
  have hplace {file : String} {n : Node} (hmem : n ∈ ts.nodesOf root file)
      (htype : n.isTypeDefinition) (hcollected : n.contract = none ∧
          file ∈ ts.importedFiles root compiled ∨ file ∈ bases.map BaseContract.file ∧
            (hasBaseName bases n ∨ isInLibrary ts root file n)) :=
    ((h (file, n)).1 ⟨hmem, htype, hcollected⟩).place
  constructor
  case imports =>
    intro file n hmem htype hnone
    constructor
    · intro hfile
      rcases hplace hmem htype (.inl ⟨hnone, hfile⟩) with ⟨-, hreached⟩ | hbase | ⟨hlibrary, -⟩
      · exact hreached
      · exact absurd hnone (contract_ne_none_of_hasBaseName hbase.hasBaseName)
      · exact absurd hnone (contract_ne_none_of_isInLibrary hlibrary)
    · intro hreached
      rcases hfound ⟨hmem, htype, .inl ⟨hnone, hreached⟩⟩ with ⟨-, hfile⟩ | ⟨-, hname | hlibrary⟩
      · exact hfile
      · exact absurd hnone (contract_ne_none_of_hasBaseName hname)
      · exact absurd hnone (contract_ne_none_of_isInLibrary hlibrary)
  case libraries =>
    intro file n hmem htype hlibrary hreached
    rcases hfound ⟨hmem, htype, .inr (.inr ⟨hlibrary, hreached⟩)⟩ with ⟨hnone, -⟩ | ⟨hfile, -⟩
    · exact absurd hnone (contract_ne_none_of_isInLibrary hlibrary)
    · exact hfile
  case namesakes =>
    intro b hb n hmem htype hname
    refine (hplace hmem htype (.inr ⟨List.mem_map_of_mem hb, .inl hname⟩)).resolve_left ?_
    exact fun hnone => contract_ne_none_of_hasBaseName hname hnone.1
  case reached =>
    intro b hb n hmem htype hlibrary
    have hplaced := (hplace hmem htype (.inr ⟨List.mem_map_of_mem hb, .inr hlibrary⟩)).resolve_left
      fun hnone => contract_ne_none_of_isInLibrary hlibrary hnone.1
    exact hplaced.imp_right And.right

/-- So it is where no path has doubled slashes, imported libraries with types stand next to bases,
nothing next to a base is named like a base elsewhere, and the files of bases are imported. -/
theorem wellArranged_of_spelled
    (hspelled : ∀ f ∈ (ts.unitsOf root).keys, ∀ path ∈ paths ts root f, spelled path = path)
    (hlibraries : ∀ file ∈ ts.importedFiles root compiled, ∀ n ∈ ts.nodesOf root file,
      n.isTypeDefinition → isInLibrary ts root file n → file ∈ bases.map BaseContract.file)
    (hnamesakes : ∀ b ∈ bases, ∀ n ∈ ts.nodesOf root b.file, n.isTypeDefinition →
      hasBaseName bases n → IsInBase bases b.file n)
    (hreached : ∀ b ∈ bases, b.file ∈ ts.importedFiles root compiled) :
    WellArranged ts root compiled bases where
  imports _ _ _ _ _ := (reaches_iff_of_spelled hspelled).symm
  libraries file n hmem htype hlibrary hfile :=
    hlibraries file ((reaches_iff_of_spelled hspelled).1 hfile) n hmem htype hlibrary
  namesakes b hb n hmem htype hname := .inl (hnamesakes b hb n hmem htype hname)
  reached b hb _ _ _ _ := .inr ((reaches_iff_of_spelled hspelled).2 (hreached b hb))

/-- An index that answers from what its trees have resolves the definitions that are collected for
the contract, each once. They are those in scope exactly where the files are well arranged. -/
theorem sourceTypes_inScope_iff {ix ix' : SyntaxIndex} {types : List SourceType}
    (hix : IsCurrent ts root ix)
    (h : (Query.sourceTypes root compiled contract .solidity).run.run ix = (.ok types, ix')) :
    ∃ bases defs, IsBaseList ts root compiled contract bases ∧ defs.Nodup ∧
      List.Forall₂ (Resolves ts root) defs types ∧
      (∀ d, d ∈ defs ↔ IsCollected ts root compiled bases d) ∧
      ((∀ d, d ∈ defs ↔ InScope ts root compiled bases d) ↔
        WellArranged ts root compiled bases) := by
  obtain ⟨-, bases, hbases, hresolves⟩ := ensures_sourceTypes ix types ix' hix h
  refine ⟨bases, collected ts root compiled bases, hbases, nodup_collected, hresolves,
    fun _ => mem_collected_iff, ?_⟩
  simp only [mem_collected_iff]
  exact wellArranged_iff

end Documented

section Files

open Imports

/-- An enumeration without members. -/
def enumeration (id : Nat) (owner : Option String) (name : String) : Node where
  id := id
  kind := "EnumDefinition"
  contract := owner
  lang := .solidity
  fields := [("id", .ofNat id), ("name", name), ("canonicalName", name), ("members", .array [])]

/-- The sources of a compilation of one file, written down. -/
def indexOf (root : String) (sources : List (String × List Node)) : SyntaxIndex :=
  { SyntaxIndex.empty with
    trees := (∅ : Trees).insert root
      (.ofList (sources.map fun e => (e.1, e.2.foldl FlatTree.insert ∅))) }

/-- A contract with its base, and a library next to the base. -/
def vault : SyntaxIndex := indexOf "main.sol"
  [("main.sol", [.ofImport 1 "base.sol", .ofContract 2 "Vault" [4]]),
    ("base.sol", [enumeration 3 none "Mode", .ofContract 4 "Owned" [],
      enumeration 5 "Owned" "State", .ofLibrary 6 "Math", enumeration 7 "Math" "Rounding"])]

/-- A contract with its base and a library in another file. Next to the base there is a contract
named like the heir. -/
def scattered : SyntaxIndex := indexOf "main.sol"
  [("main.sol", [.ofImport 1 "base.sol", .ofImport 2 "lib.sol", .ofContract 3 "Vault" [4]]),
    ("base.sol", [.ofContract 4 "Owned" [], enumeration 5 "Owned" "State",
      .ofContract 6 "Vault" [], enumeration 7 "Vault" "Stage"]),
    ("lib.sol", [.ofLibrary 8 "Math", enumeration 9 "Math" "Rounding"])]

/-- All types in scope are found where the files are well arranged. -/
theorem sourceTypes_inScope_vault : ∃ types ix' bases defs,
    (Query.sourceTypes "main.sol" "main.sol" "Vault" .solidity).run.run vault = (.ok types, ix') ∧
    types.map SourceType.name = ["Mode", "State", "Rounding"] ∧
    List.Forall₂ (Resolves vault.trees "main.sol") defs types ∧
    ∀ d, d ∈ defs ↔ InScope vault.trees "main.sol" "main.sol" bases d := by
  have hread : ((Query.sourceTypes "main.sol" "main.sol" "Vault" .solidity).run.run
      vault).1.toOption.map (·.map SourceType.name) = some ["Mode", "State", "Rounding"] := by
    decide +kernel
  have hlisted : (Inheritance.definitionOf vault.trees "main.sol" "main.sol" "Vault").map (fun n =>
      (Inheritance.basesOf vault.trees "main.sol" ⟨"main.sol", "Vault", n.isLibrary⟩ n).toOption) =
        some (some [⟨"main.sol", "Vault", false⟩, ⟨"base.sol", "Owned", false⟩]) := by
    decide +kernel
  obtain ⟨types, ix', hrun, hnames⟩ := Run.exists_of_map_eq_some hread
  obtain ⟨bases, defs, ⟨n, hn, hbases⟩, -, hresolves, -, hiff⟩ :=
    sourceTypes_inScope_iff (isCurrent_of_empty rfl rfl) hrun
  rw [hn, Option.map_some, hbases] at hlisted
  obtain rfl := Option.some.inj (Option.some.inj hlisted)
  refine ⟨types, ix', _, defs, hrun, hnames, hresolves, hiff.2 ?_⟩
  exact wellArranged_of_spelled (by decide +kernel) (by decide +kernel) (by decide +kernel)
    (by decide +kernel)

/-- The types of a library in another file are missing. -/
theorem not_inScope_scattered : ∃ types ix',
    (Query.sourceTypes "main.sol" "main.sol" "Vault" .solidity).run.run scattered =
      (.ok types, ix') ∧
    types.map SourceType.name = ["State", "Stage"] ∧
    ∀ bases defs, List.Forall₂ (Resolves scattered.trees "main.sol") defs types →
      ¬ ∀ d, d ∈ defs ↔ InScope scattered.trees "main.sol" "main.sol" bases d := by
  have hread : ((Query.sourceTypes "main.sol" "main.sol" "Vault" .solidity).run.run
      scattered).1.toOption.map (·.map SourceType.name) = some ["State", "Stage"] := by
    decide +kernel
  obtain ⟨types, ix', hrun, hnames⟩ := Run.exists_of_map_eq_some hread
  refine ⟨types, ix', hrun, hnames, fun bases defs hresolves hscope => ?_⟩
  have hreached : Reaches scattered.trees "main.sol" "main.sol" "lib.sol" := by
    have hsource : IsSource scattered.trees "main.sol" "lib.sol" := by decide +kernel
    exact .single ⟨"lib.sol", by decide +kernel, (if_pos hsource).symm⟩
  obtain ⟨n, hmem, htype, hlibrary, hname⟩ : ∃ n ∈ scattered.trees.nodesOf "main.sol" "lib.sol",
      n.isTypeDefinition ∧ isInLibrary scattered.trees "main.sol" "lib.sol" n ∧
        (SourceType.ofDefinition scattered.trees "main.sol" n).toOption.map SourceType.name =
          some "Rounding" := by decide +kernel
  obtain ⟨t, ht, hresolved⟩ := Run.exists_of_mem_forall₂ hresolves
    ((hscope ("lib.sol", n)).2 ⟨hmem, htype, .inr (.inr ⟨hlibrary, hreached⟩)⟩)
  rw [show SourceType.ofDefinition scattered.trees "main.sol" n = .ok t from hresolved] at hname
  have hfound : "Rounding" ∈ types.map SourceType.name :=
    List.mem_map.2 ⟨t, ht, Option.some.inj hname⟩
  rw [hnames] at hfound
  revert hfound
  decide

end Files

end Scope

end ContractModel
