import ContractModel.Proofs.Function.Collection

/-! # Overridden functions

For every selector the function of the first contract in the base list that declares it is kept. In
a hierarchy with levels a contract stands in front of those that it inherits from, so the function
that overrides the others is kept. A base that is inherited both directly and through another base
can stand in front of its heir, and then its own function is kept.
-/

namespace ContractModel.Catalog

open Inheritance

/-- A contract declares a function or a getter that can be called by the selector. -/
def DeclaredIn (s : Subject) (c : BaseContract) (σ : String) : Prop :=
  ∃ d ∈ declared s c, d.selector? s = .ok (some σ)

/-- No contract of the list that declares the selector of a kept function inherits from the one
whose function is kept. -/
def MostDerivedKept (s : Subject) (bases : List BaseContract)
    (made : List (Declaration × ContractFunction)) : Prop :=
  ∀ p ∈ made, ∀ σ, p.2.callSelector? = some σ →
    ∀ y ∈ bases, y ≠ p.1.base → DeclaredIn s y σ → ¬ Inherits s.trees s.root y p.1.base

/-- Where a contract stands in front of an heir that declares the same selector, another contract
that declares it stands in front of both. -/
def OverridesInFront (s : Subject) (bases : List BaseContract) : Prop :=
  ∀ pre x post, bases = pre ++ x :: post → ∀ y ∈ post, ∀ σ, DeclaredIn s x σ → DeclaredIn s y σ →
    Inherits s.trees s.root y x → ∃ z ∈ pre, DeclaredIn s z σ

variable {s : Subject} {compiled contract : String} {ix ix' : SyntaxIndex} {x : BaseContract}
  {bases : List BaseContract} {made : List (Declaration × ContractFunction)} {found : Selectors}
  {fs : List ContractFunction} {σ : String}

instance (d : Declaration) (selector : Option String) :
    Decidable (d.selector? s = .ok selector) :=
  decidable_of_iff ((d.selector? s).toOption = some selector) Run.toOption_eq_some_iff

instance : Decidable (DeclaredIn s x σ) := inferInstanceAs (Decidable (∃ d ∈ declared s x, _))

theorem exists_split_of_flatMap_eq {α β : Type} {g : α → List β} {as : List α} {pre post : List β}
    {b : β} (h : as.flatMap g = pre ++ b :: post) :
    ∃ front a back inner rest, as = front ++ a :: back ∧ g a = inner ++ b :: rest ∧
      pre = front.flatMap g ++ inner := by
  induction as generalizing pre with
  | nil => simp at h
  | cons a as ih =>
    rw [List.flatMap_cons] at h
    rcases List.append_eq_append_iff.1 h with ⟨pre', rfl, htail⟩ | ⟨rest, ha, htail⟩
    · obtain ⟨front, a', back, inner, rest, rfl, ha', rfl⟩ := ih htail
      exact ⟨a :: front, a', back, inner, rest, rfl, ha', by simp⟩
    · cases rest with
      | nil =>
        obtain ⟨front, a', back, inner, rest, rfl, ha', hpre⟩ := @ih [] htail.symm
        refine ⟨a :: front, a', back, inner, rest, rfl, ha', ?_⟩
        rw [List.flatMap_cons, List.append_assoc, ← hpre, ha]
        simp
      | cons b' rest =>
        cases htail
        exact ⟨[], a, as, pre, rest, rfl, ha, rfl⟩

/-- A contract's function is kept for a selector exactly when the contract is the first in the base
list that declares it. -/
theorem exists_kept_iff
    (h : trace s contract [] (bases.flatMap (declared s)) = .ok (made, found)) :
    (∃ p ∈ made, p.1.base = x ∧ p.2.callSelector? = some σ) ↔
      ∃ pre post, bases = pre ++ x :: post ∧ DeclaredIn s x σ ∧ ∀ z ∈ pre, ¬ DeclaredIn s z σ := by
  constructor
  · rintro ⟨⟨d, f⟩, hp, rfl, hσ⟩
    obtain ⟨pre, post, hds, hselector, hfirst⟩ := first_of_mem h hp hσ
    obtain ⟨front, c, back, inner, rest, rfl, hc, rfl⟩ := exists_split_of_flatMap_eq hds
    have hd : d ∈ declared s c := hc ▸ List.mem_append_right inner List.mem_cons_self
    refine ⟨front, back, ?_, ?_, ?_⟩
    · rw [base_of_mem_declared hd]
    · exact ⟨d, base_of_mem_declared hd ▸ hd, hselector⟩
    · rintro z hz ⟨e, he, hdeclared⟩
      exact hfirst e (List.mem_append_left _ (List.mem_flatMap.2 ⟨z, hz, he⟩)) hdeclared
  · rintro ⟨pre, post, rfl, ⟨d, hd, hselector⟩, hpre⟩
    -- of the declarations of the contract itself the first one with the selector counts
    obtain ⟨e, he⟩ : ∃ e, (declared s x).find? (fun e => e.selector? s = .ok (some σ)) = some e :=
      Option.isSome_iff_exists.1 (List.find?_isSome.2 ⟨d, hd, by simpa using hselector⟩)
    obtain ⟨heselector, inner, rest, hx, hinner⟩ := List.find?_eq_some_iff_append.1 he
    have hsplit : (pre ++ x :: post).flatMap (declared s) =
        (pre.flatMap (declared s) ++ inner) ++ e :: (rest ++ post.flatMap (declared s)) := by
      rw [List.flatMap_append, List.flatMap_cons, hx]
      simp
    rw [hsplit] at h
    obtain ⟨f, hf, hσ⟩ := exists_mem_of_first h (by simpa using heselector) (by
      intro e' he' hdeclared
      rcases List.mem_append.1 he' with he' | he'
      · obtain ⟨z, hz, he'⟩ := List.mem_flatMap.1 he'
        exact hpre z hz ⟨e', he', hdeclared⟩
      · simpa [hdeclared] using hinner e' he')
    have hex : e ∈ declared s x := hx ▸ List.mem_append_right inner List.mem_cons_self
    exact ⟨(e, f), hf, base_of_mem_declared hex, hσ⟩

/-- The most derived function is kept for every selector exactly when overriding functions stand in
front. -/
theorem mostDerivedKept_iff (hlang : s.lang = .solidity)
    (h : (collectAll s compiled contract).run.run ix = (.ok fs, ix')) :
    ∃ bases made, Traced s compiled contract ix bases made ∧ fs = made.map Prod.snd ∧
      (MostDerivedKept s bases made ↔ OverridesInFront s bases) := by
  obtain ⟨bases, made, htraced, hfs⟩ := exists_traced_of_collectAll hlang h
  obtain ⟨found, hmade⟩ := htraced.made_eq_ok
  refine ⟨bases, made, htraced, hfs, ?_⟩
  constructor
  · rintro hkept pre x post rfl y hy σ hx hyσ hinherits
    by_contra hnone
    obtain ⟨p, hp, rfl, hσ⟩ := (exists_kept_iff hmade).2
      ⟨pre, post, rfl, hx, fun z hz hzσ => hnone ⟨z, hz, hzσ⟩⟩
    have hmem : y ∈ pre ++ p.1.base :: post := List.mem_append_right pre (List.mem_cons_of_mem _ hy)
    refine hkept p hp σ hσ y hmem ?_ hyσ hinherits
    rintro rfl
    obtain ⟨_, _, -, hnodup⟩ := htraced.exists_eq_cons
    exact (List.nodup_cons.1 (List.nodup_append.1 hnodup).2.1).1 hy
  · rintro hfront p hp σ hσ y hy hne hyσ hinherits
    obtain ⟨pre, post, rfl, hx, hpre⟩ := (exists_kept_iff hmade).1 ⟨p, hp, rfl, hσ⟩
    rcases List.mem_append.1 hy with hy | hy
    · exact hpre y hy hyσ
    · rcases List.mem_cons.1 hy with rfl | hy
      · exact hne rfl
      · obtain ⟨z, hz, hzσ⟩ := hfront pre _ post rfl y hy σ hx hyσ hinherits
        exact hpre z hz hzσ

theorem overridesInFront_of_pairwise
    (h : bases.Pairwise fun x y => ¬ Inherits s.trees s.root y x) : OverridesInFront s bases := by
  rintro pre x post rfl y hy σ - - hinherits
  obtain ⟨-, htail, -⟩ := List.pairwise_append.1 h
  exact absurd hinherits ((List.pairwise_cons.1 htail).1 y hy)

/-- In a hierarchy with levels, overriding functions stand in front. -/
theorem overridesInFront_of_levels {depth : BaseContract → Nat} {first : BaseContract} {n : Node}
    (hdepth : ∀ heir base, DirectBase s.trees s.root heir base → depth base = depth heir + 1)
    (hfirst : Defines s.trees s.root first n) (h : basesOf s.trees s.root first n = .ok bases) :
    OverridesInFront s bases :=
  overridesInFront_of_pairwise (pairwise_not_inherits_basesOf hdepth hfirst h)

section Hierarchies

/-! Hierarchies of one file where some contracts define `function f() external`. -/

def fNode (id : Nat) (contract : String) : Node :=
  .ofFunction id contract "f" "external" [("functionSelector", "26121ff0")]

def hierarchy (nodes : List Node) : Subject :=
  .ofNodes "/C.sol" nodes {
    interface := [⟨"function", some "f", [], [], none, none⟩]
    storageLayout := none
    machine := none }

/-- `B is A`, `C is A` and `D is B, C`, where `A` and `C` define the function. -/
def diamond : List Node :=
  [.ofContract 1 "A" [], fNode 10 "A", .ofContract 2 "B" [1], .ofContract 3 "C" [1],
    fNode 30 "C", .ofContract 4 "D" [2, 3]]

/-- `B is A` and `C is A, B`, where `A` and `B` define the function. -/
def twiceInherited : List Node :=
  [.ofContract 1 "A" [], fNode 10 "A", .ofContract 2 "B" [1], fNode 20 "B",
    .ofContract 3 "C" [1, 2]]

def inFile (name : String) : BaseContract := ⟨"/C.sol", name, false⟩

/-- The level of a contract, given the names on each level. -/
def levelIn (names : List (List String)) (c : BaseContract) : Nat :=
  names.findIdx fun level => level.contains c.name

end Hierarchies

/-- In the diamond the function of `C` is kept. -/
theorem mostDerivedKept_diamond : ∃ fs ix' bases made,
    (collectAll (hierarchy diamond) "/C.sol" "D").run.run (.ofNodes "/C.sol" diamond) =
      (.ok fs, ix') ∧
    Traced (hierarchy diamond) "/C.sol" "D" (.ofNodes "/C.sol" diamond) bases made ∧
    fs = made.map Prod.snd ∧ fs.map ContractFunction.nodeId = [some 30] ∧
    MostDerivedKept (hierarchy diamond) bases made := by
  have hrun : ((collectAll (hierarchy diamond) "/C.sol" "D").run.run
      (.ofNodes "/C.sol" diamond)).1.toOption.map (fun fs => fs.map ContractFunction.nodeId) =
        some [some 30] := by decide +kernel
  obtain ⟨fs, ix', hfs, hkept⟩ := Run.exists_of_map_eq_some hrun
  obtain ⟨bases, made, htraced, heq, hiff⟩ := mostDerivedKept_iff rfl hfs
  refine ⟨fs, ix', bases, made, hfs, htraced, heq, hkept, hiff.2 ?_⟩
  have hdepth : ∀ l ∈ links (hierarchy diamond).trees "/C.sol",
      levelIn [["D"], ["B", "C"], ["A"]] l.2 = levelIn [["D"], ["B", "C"], ["A"]] l.1 + 1 := by
    decide +kernel
  have hfirst :
      Defines (hierarchy diamond).trees "/C.sol" (inFile "D") (.ofContract 4 "D" [2, 3]) := by
    refine ⟨?_, rfl, rfl⟩
    rw [inFile, hierarchy, Subject.ofNodes, SyntaxIndex.nodesOf_ofNodes]
    exact List.mem_of_getElem? (i := 5) rfl
  have hbases : (basesOf (hierarchy diamond).trees "/C.sol" (inFile "D")
      (.ofContract 4 "D" [2, 3])).toOption = some bases := by
    rw [htraced.bases_eq (["D", "B", "C", "A"].map inFile) (by decide +kernel)]
    decide +kernel
  exact overridesInFront_of_levels (fun heir base h => hdepth (heir, base) (mem_links_iff.2 h))
    hfirst (Run.toOption_eq_some_iff.1 hbases)

/-- `A` is a direct base of `C` in front of `B`, so its function is kept and not the one of `B`,
which overrides it. -/
theorem not_mostDerivedKept_twiceInherited :
    Acyclic (hierarchy twiceInherited).trees "/C.sol" ∧ ∃ fs ix' bases made,
      (collectAll (hierarchy twiceInherited) "/C.sol" "C").run.run
        (.ofNodes "/C.sol" twiceInherited) = (.ok fs, ix') ∧
      Traced (hierarchy twiceInherited) "/C.sol" "C" (.ofNodes "/C.sol" twiceInherited) bases made ∧
      fs = made.map Prod.snd ∧ fs.map ContractFunction.nodeId = [some 10] ∧
      ¬ MostDerivedKept (hierarchy twiceInherited) bases made := by
  have hacyclic : Acyclic (hierarchy twiceInherited).trees "/C.sol" := by
    have hlevels : ∀ l ∈ links (hierarchy twiceInherited).trees "/C.sol",
        levelIn [["C"], ["B"], ["A"]] l.1 < levelIn [["C"], ["B"], ["A"]] l.2 := by decide +kernel
    exact acyclic_of_depth fun heir base h => hlevels (heir, base) (mem_links_iff.2 h)
  refine ⟨hacyclic, ?_⟩
  have hrun : ((collectAll (hierarchy twiceInherited) "/C.sol" "C").run.run
      (.ofNodes "/C.sol" twiceInherited)).1.toOption.map
        (fun fs => fs.map ContractFunction.nodeId) = some [some 10] := by decide +kernel
  obtain ⟨fs, ix', hfs, hids⟩ := Run.exists_of_map_eq_some hrun
  obtain ⟨bases, made, htraced, heq⟩ := exists_traced_of_collectAll rfl hfs
  refine ⟨fs, ix', bases, made, hfs, htraced, heq, hids, fun hkept => ?_⟩
  obtain rfl := htraced.bases_eq (["C", "A", "B"].map inFile) (by decide +kernel)
  obtain ⟨found, hmade⟩ := htraced.made_eq_ok
  have hfirst : ∀ z ∈ ["C"].map inFile, ¬ DeclaredIn (hierarchy twiceInherited) z "26121ff0" := by
    decide +kernel
  obtain ⟨p, hp, hbase, hσ⟩ := (exists_kept_iff hmade).2
    ⟨["C"].map inFile, ["B"].map inFile, rfl, (by decide +kernel), hfirst⟩
  have hinherits : Inherits (hierarchy twiceInherited).trees "/C.sol" (inFile "B") (inFile "A") :=
    .single (by decide +kernel)
  refine hkept p hp "26121ff0" hσ (inFile "B") (by decide) ?_ (by decide +kernel) ?_
  · rw [hbase]
    decide
  · rw [hbase]
    exact hinherits

end ContractModel.Catalog
