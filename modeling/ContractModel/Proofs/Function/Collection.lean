import ContractModel.Function.Catalog
import ContractModel.Proofs.Syntax.Inheritance

/-! # Collected functions and their declarations

A collection goes through the declarations of all bases in order, and what it has found in the end
are the selectors that were declared. So a function that can be called from outside is kept exactly
for the first declaration of its selector.
-/

namespace ContractModel

/-- The selector under which a function can be called from outside. -/
def ContractFunction.callSelector? (f : ContractFunction) : Option String :=
  if !f.isConstructor && f.visibility.isExternal then some f.selector else none

theorem ContractFunction.callSelector?_eq_some_iff {f : ContractFunction} {σ : String} :
    f.callSelector? = some σ ↔ ¬ f.isConstructor ∧ f.visibility.isExternal ∧ f.selector = σ := by
  simp [callSelector?, and_assoc]

namespace Catalog

/-- What the tree of a base declares a function by. -/
inductive Declaration where
  | definition (base : BaseContract) (node : Node)
  | stateVariable (base : BaseContract) (node : Node)

namespace Declaration

def base : Declaration → BaseContract
  | definition base _ | stateVariable base _ => base

def node : Declaration → Node
  | definition _ n | stateVariable _ n => n

variable (s : Subject)

/-- The selector that a declaration has, if its function can be called from outside. -/
def selector? : Declaration → Except Error (Option String)
  | definition base n => do
    let visibility ← visibilityOf n
    let arguments ← parameterTypes s base n "parameters"
    definedSelector s n visibility arguments
  | stateVariable _ n => do
    let entry ← getterEntry s n.name
    let arguments ← entry.inputs.mapM (ParameterType.ofInterface s.types)
    some <$> selectorOf s (some n) n.name arguments

def read (found : Selectors) : Declaration → Except Error (Option ContractFunction × Selectors)
  | definition base n => ofDefinition s base found n
  | stateVariable base n => ofVariable s base found n

/-- Whether the function of a declaration counts for the contract. -/
def counts (contract : String) : Declaration → ContractFunction → Bool
  | definition base _, f => f.visibility ≠ .priv || base.name == contract
  | stateVariable _ _, _ => true

/-- What a declaration makes when its selector is free. -/
inductive Makes : Declaration → Option String → Option ContractFunction → Prop
  | definition {base n visibility arguments results selector f}
      (hselector : definedSelector s n visibility arguments = .ok selector)
      (harguments : parameterTypes s base n "parameters" = .ok arguments)
      (hresults : parameterTypes s base n "returnParameters" = .ok results)
      (hvisibility : visibilityOf n = .ok visibility)
      (hf : f = described s base n visibility arguments results (selector.getD "0")) :
      Makes (definition base n) selector
        (if f.isConstructor && !f.isInInterface then none else some f)
  | stateVariable {base n entry arguments results selector}
      (hselector : selectorOf s (some n) n.name arguments = .ok selector) :
      Makes (stateVariable base n) (some selector)
        (some (describedGetter s base n entry arguments results selector))

end Declaration

variable {s : Subject} {contract : String} {base : BaseContract} {d e : Declaration}
  {ds es : List Declaration} {found found' : Selectors} {σ : String} {f : ContractFunction}
  {r : Option ContractFunction} {made : List (Declaration × ContractFunction)}

theorem unlessFound_eq_ok_iff {selector : Option String}
    {make : Except Error (Option ContractFunction)} :
    unlessFound found selector make = .ok (r, found') ↔
      ((∃ σ ∈ found, selector = some σ) ∧ r = none ∧ found' = found) ∨
        ((∀ σ ∈ found, selector ≠ some σ) ∧ make = .ok r ∧ found' = found ++ selector.toList) := by
  have hany : selector.any found.contains = true ↔ ∃ σ ∈ found, selector = some σ := by
    cases selector <;> simp
  unfold unlessFound
  split
  · next hseen =>
    have hseen := hany.1 hseen
    have hfresh : ¬ ∀ σ ∈ found, selector ≠ some σ := by
      obtain ⟨σ, hσ, hselector⟩ := hseen
      exact fun h => h σ hσ hselector
    simp [hseen, hfresh, eq_comm]
  · next hfresh =>
    have hfresh := mt hany.2 hfresh
    have hall : ∀ σ ∈ found, selector ≠ some σ := fun σ hσ h => hfresh ⟨σ, hσ, h⟩
    rw [Run.except_bind_eq_ok_iff]
    constructor
    · rintro ⟨r, hr, h⟩
      cases h
      exact .inr ⟨hall, hr, rfl⟩
    · rintro (⟨hseen, -⟩ | ⟨-, hr, rfl⟩)
      · exact absurd hseen hfresh
      · exact ⟨r, hr, rfl⟩

namespace Declaration

/-- All that reading a declaration can do: its selector was found before, or it makes a function. -/
theorem read_eq_ok (h : d.read s found = .ok (r, found')) :
    ∃ selector, d.selector? s = .ok selector ∧
      (((∃ σ ∈ found, selector = some σ) ∧ r = none ∧ found' = found) ∨
        ((∀ σ ∈ found, selector ≠ some σ) ∧ Makes s d selector r ∧
          found' = found ++ selector.toList)) := by
  cases d with
  | definition base n =>
    obtain ⟨visibility, hvisibility, h⟩ := Run.except_bind_eq_ok_iff.1 h
    obtain ⟨arguments, harguments, h⟩ := Run.except_bind_eq_ok_iff.1 h
    obtain ⟨selector, hselector, h⟩ := Run.except_bind_eq_ok_iff.1 h
    refine ⟨selector, ?_, ?_⟩
    · exact Run.except_bind_eq_ok_iff.2 ⟨visibility, hvisibility,
        Run.except_bind_eq_ok_iff.2 ⟨arguments, harguments, hselector⟩⟩
    · rcases unlessFound_eq_ok_iff.1 h with hseen | ⟨hfresh, hmake, hfound⟩
      · exact .inl hseen
      · obtain ⟨results, hresults, hmake⟩ := Run.except_bind_eq_ok_iff.1 hmake
        cases hmake
        exact .inr ⟨hfresh, .definition hselector harguments hresults hvisibility rfl, hfound⟩
  | stateVariable base n =>
    obtain ⟨entry, hentry, h⟩ := Run.except_bind_eq_ok_iff.1 h
    obtain ⟨arguments, harguments, h⟩ := Run.except_bind_eq_ok_iff.1 h
    obtain ⟨selector, hselector, h⟩ := Run.except_bind_eq_ok_iff.1 h
    refine ⟨some selector, ?_, ?_⟩
    · refine Run.except_bind_eq_ok_iff.2 ⟨entry, hentry,
        Run.except_bind_eq_ok_iff.2 ⟨arguments, harguments,
          Run.map_eq_ok_iff.2 ⟨selector, hselector, rfl⟩⟩⟩
    · rcases unlessFound_eq_ok_iff.1 h with hseen | ⟨hfresh, hmake, hfound⟩
      · exact .inl hseen
      · obtain ⟨results, hresults, hmake⟩ := Run.except_bind_eq_ok_iff.1 hmake
        cases hmake
        exact .inr ⟨hfresh, .stateVariable hselector, hfound⟩

theorem definedSelector_eq_ok {n : Node} {visibility : Visibility} {arguments : List ParameterType}
    {selector : Option String} (h : definedSelector s n visibility arguments = .ok selector) :
    ((!n.name.isEmpty && visibility.isExternal) = true ∧
      ∃ σ, selector = some σ ∧ selectorOf s (some n) n.name arguments = .ok σ) ∨
    ((!n.name.isEmpty && visibility.isExternal) = false ∧ selector = none) := by
  unfold definedSelector at h
  split at h
  · next hcall =>
    obtain ⟨σ, hσ, rfl⟩ := Run.map_eq_ok_iff.1 h
    exact .inl ⟨hcall, σ, rfl, hσ⟩
  · next hcall =>
    cases h
    exact .inr ⟨Bool.eq_false_iff.2 hcall, rfl⟩

theorem callSelector?_described (n : Node) (visibility : Visibility)
    (arguments results : List ParameterType) (σ : String) :
    (described s base n visibility arguments results σ).callSelector? =
      if !n.name.isEmpty && visibility.isExternal then some σ else none := rfl

theorem isConstructor_described (n : Node) (visibility : Visibility)
    (arguments results : List ParameterType) (σ : String) :
    (described s base n visibility arguments results σ).isConstructor = n.name.isEmpty := rfl

theorem name_described {n : Node} {visibility : Visibility} {arguments results : List ParameterType}
    (h : n.name.isEmpty = false) :
    (described s base n visibility arguments results σ).name = n.name := by
  rw [described, h]
  rfl

namespace Makes

variable {selector : Option String}

/-- The selector of a declaration is the one that its function has for calls from outside. -/
theorem callSelector?_eq (h : Makes s d selector (some f)) : f.callSelector? = selector := by
  generalize hr : some f = r at h
  cases h with
  | definition hselector _ _ _ hf =>
    split at hr
    · cases hr
    · cases hr
      rw [hf, callSelector?_described]
      rcases definedSelector_eq_ok hselector with ⟨hcall, σ, rfl, -⟩ | ⟨hcall, rfl⟩
      · rw [if_pos hcall, Option.getD_some]
      · rw [hcall, if_neg Bool.false_ne_true]
  | stateVariable hselector =>
    cases hr
    rfl

/-- The selector was looked up under the function's name and arguments. -/
theorem selectorOf_eq_ok (h : Makes s d (some σ) (some f)) :
    selectorOf s (some d.node) f.name f.arguments = .ok σ := by
  generalize hr : some f = r at h
  cases h with
  | definition hselector _ _ _ hf =>
    split at hr
    · cases hr
    · cases hr
      rcases definedSelector_eq_ok hselector with ⟨hcall, σ, ⟨⟩, hσ⟩ | ⟨-, hnone⟩
      · have hname := (Bool.and_eq_true_iff.1 hcall).1
        rw [Bool.not_eq_true'] at hname
        rw [hf, name_described hname]
        exact hσ
      · cases hnone
  | stateVariable hselector =>
    cases hr
    exact hselector

theorem name_of_isConstructor (h : Makes s d selector (some f)) (hf : f.isConstructor = true) :
    f.name = InterfaceEntry.constructorName := by
  generalize hr : some f = r at h
  cases h with
  | definition _ _ _ _ hg =>
    split at hr
    · cases hr
    · cases hr
      rw [hg, isConstructor_described] at hf
      rw [hg, described, hf]
      rfl
  | stateVariable _ =>
    cases hr
    cases hf

/-- A function that can be called from outside is never left out. -/
theorem exists_of_selector (h : Makes s d (some σ) r) : ∃ f, r = some f := by
  cases h with
  | definition hselector _ _ _ hf =>
    rcases definedSelector_eq_ok hselector with ⟨hcall, -⟩ | ⟨-, hnone⟩
    · refine ⟨_, if_neg fun hout => ?_⟩
      have hconstructor := (Bool.and_eq_true_iff.1 hout).1
      have hname := (Bool.and_eq_true_iff.1 hcall).1
      rw [hf, isConstructor_described] at hconstructor
      rw [hconstructor] at hname
      cases hname
    · cases hnone
  | stateVariable hselector => exact ⟨_, rfl⟩

end Makes

theorem counts_of_callSelector? (h : f.callSelector? = some σ) : d.counts contract f = true := by
  cases d with
  | definition base n =>
    obtain ⟨-, hexternal, -⟩ := ContractFunction.callSelector?_eq_some_iff.1 h
    cases hv : f.visibility <;> simp [counts, hv, Visibility.isExternal] at hexternal ⊢
  | stateVariable base n => rfl

end Declaration

open Declaration

/-- What a list of declarations makes, each function with its declaration, and the selectors that
are found in the end. -/
def trace (s : Subject) (contract : String) : Selectors → List Declaration →
    Except Error (List (Declaration × ContractFunction) × Selectors)
  | found, [] => .ok ([], found)
  | found, d :: ds => do
    let (function, found) ← d.read s found
    let (made, found) ← trace s contract found ds
    return ((function.filter (d.counts contract)).toList.map (d, ·) ++ made, found)

theorem trace_cons_eq_ok_iff :
    trace s contract found (d :: ds) = .ok (made, found') ↔
      ∃ r next rest, d.read s found = .ok (r, next) ∧
        trace s contract next ds = .ok (rest, found') ∧
        made = (r.filter (d.counts contract)).toList.map (d, ·) ++ rest := by
  rw [trace, Run.except_bind_eq_ok_iff]
  constructor
  · rintro ⟨⟨r, next⟩, hread, h⟩
    obtain ⟨⟨rest, found'⟩, hrest, h⟩ := Run.except_bind_eq_ok_iff.1 h
    cases h
    exact ⟨r, next, rest, hread, hrest, rfl⟩
  · rintro ⟨r, next, rest, hread, hrest, rfl⟩
    exact ⟨(r, next), hread, Run.except_bind_eq_ok_iff.2 ⟨(rest, found'), hrest, rfl⟩⟩

theorem trace_append_eq_ok_iff :
    trace s contract found (ds ++ es) = .ok (made, found') ↔
      ∃ front next back, trace s contract found ds = .ok (front, next) ∧
        trace s contract next es = .ok (back, found') ∧ made = front ++ back := by
  induction ds generalizing found made with
  | nil =>
    constructor
    · intro h
      exact ⟨[], found, made, rfl, h, rfl⟩
    · rintro ⟨front, next, back, h, hback, rfl⟩
      cases h
      exact hback
  | cons d ds ih =>
    rw [List.cons_append, trace_cons_eq_ok_iff]
    constructor
    · rintro ⟨r, next, rest, hread, hrest, rfl⟩
      obtain ⟨front, next', back, hfront, hback, rfl⟩ := ih.1 hrest
      refine ⟨_, next', back, trace_cons_eq_ok_iff.2 ⟨r, next, front, hread, hfront, rfl⟩,
        hback, ?_⟩
      rw [List.append_assoc]
    · rintro ⟨front, next', back, hfront, hback, rfl⟩
      obtain ⟨r, next, rest, hread, hrest, rfl⟩ := trace_cons_eq_ok_iff.1 hfront
      refine ⟨r, next, rest ++ back, hread, ih.2 ⟨rest, next', back, hrest, hback, rfl⟩, ?_⟩
      rw [List.append_assoc]

section Run

/-- What is found in the end is what was found before or declared. -/
theorem mem_found_iff (h : trace s contract found ds = .ok (made, found')) :
    σ ∈ found' ↔ σ ∈ found ∨ ∃ d ∈ ds, d.selector? s = .ok (some σ) := by
  induction ds generalizing found made with
  | nil =>
    cases h
    simp
  | cons d ds ih =>
    obtain ⟨r, next, rest, hread, hrest, -⟩ := trace_cons_eq_ok_iff.1 h
    obtain ⟨selector, hselector, hcases⟩ := read_eq_ok hread
    have hnext : σ ∈ next ↔ σ ∈ found ∨ selector = some σ := by
      rcases hcases with ⟨⟨τ, hτ, rfl⟩, -, rfl⟩ | ⟨-, -, rfl⟩
      · simp only [Option.some.injEq]
        exact ⟨Or.inl, fun h => h.elim id fun h => h ▸ hτ⟩
      · rw [List.mem_append, Option.mem_toList]
    simp only [ih hrest, hnext, List.mem_cons, exists_eq_or_imp, hselector, Except.ok.injEq,
      or_assoc]

/-- Each function comes from a declaration that counts it, read with what was found before it. -/
theorem exists_read_of_mem (h : trace s contract found ds = .ok (made, found'))
    (hf : (d, f) ∈ made) :
    ∃ pre post front next next', ds = pre ++ d :: post ∧
      trace s contract found pre = .ok (front, next) ∧ d.read s next = .ok (some f, next') ∧
      d.counts contract f = true := by
  induction ds generalizing found made with
  | nil =>
    cases h
    cases hf
  | cons e ds ih =>
    obtain ⟨r, next, rest, hread, hrest, rfl⟩ := trace_cons_eq_ok_iff.1 h
    rcases List.mem_append.1 hf with hf | hf
    · obtain ⟨g, hg, heq⟩ := List.mem_map.1 hf
      cases heq
      obtain ⟨rfl, hcounts⟩ := Option.filter_eq_some_iff.1 (Option.mem_toList.1 hg)
      exact ⟨[], ds, [], found, next, rfl, rfl, hread, hcounts⟩
    · obtain ⟨pre, post, front, next', next'', rfl, hpre, hd, hcounts⟩ := ih hrest hf
      exact ⟨e :: pre, post, _, next', next'', rfl,
        trace_cons_eq_ok_iff.2 ⟨r, next, front, hread, hpre, rfl⟩, hd, hcounts⟩

theorem declaration_mem_of_mem (h : trace s contract found ds = .ok (made, found'))
    (hf : (d, f) ∈ made) : d ∈ ds := by
  obtain ⟨pre, post, -, -, -, rfl, -⟩ := exists_read_of_mem h hf
  exact List.mem_append_right pre List.mem_cons_self

theorem makes_of_mem (h : trace s contract found ds = .ok (made, found')) (hf : (d, f) ∈ made) :
    ∃ selector, Makes s d selector (some f) ∧ d.counts contract f = true := by
  obtain ⟨pre, post, front, next, next', -, -, hread, hcounts⟩ := exists_read_of_mem h hf
  obtain ⟨selector, -, ⟨-, hnone, -⟩ | ⟨-, hmakes, -⟩⟩ := read_eq_ok hread
  · cases hnone
  · exact ⟨selector, hmakes, hcounts⟩

/-- A function that can be called from outside comes from the first declaration of its selector. -/
theorem first_of_mem (h : trace s contract [] ds = .ok (made, found')) (hf : (d, f) ∈ made)
    (hσ : f.callSelector? = some σ) :
    ∃ pre post, ds = pre ++ d :: post ∧ d.selector? s = .ok (some σ) ∧
      ∀ e ∈ pre, e.selector? s ≠ .ok (some σ) := by
  obtain ⟨pre, post, front, next, next', rfl, hpre, hread, -⟩ := exists_read_of_mem h hf
  obtain ⟨selector, hselector, ⟨-, hnone, -⟩ | ⟨hfresh, hmakes, -⟩⟩ := read_eq_ok hread
  · cases hnone
  · rw [hmakes.callSelector?_eq] at hσ
    subst hσ
    refine ⟨pre, post, rfl, hselector, fun e he hdeclared => ?_⟩
    exact hfresh σ ((mem_found_iff hpre).2 (.inr ⟨e, he, hdeclared⟩)) rfl

/-- The first declaration of a selector makes a function that can be called by it. -/
theorem exists_mem_of_first {pre post : List Declaration}
    (h : trace s contract [] (pre ++ d :: post) = .ok (made, found'))
    (hσ : d.selector? s = .ok (some σ)) (hpre : ∀ e ∈ pre, e.selector? s ≠ .ok (some σ)) :
    ∃ f, (d, f) ∈ made ∧ f.callSelector? = some σ := by
  obtain ⟨front, next, back, hfront, hback, rfl⟩ := trace_append_eq_ok_iff.1 h
  obtain ⟨r, next', rest, hread, -, rfl⟩ := trace_cons_eq_ok_iff.1 hback
  obtain ⟨selector, hselector, hcases⟩ := read_eq_ok hread
  cases hσ.symm.trans hselector
  rcases hcases with ⟨⟨τ, hτ, heq⟩, -, -⟩ | ⟨-, hmakes, -⟩
  · cases heq
    rcases (mem_found_iff hfront).1 hτ with hnil | ⟨e, he, hdeclared⟩
    · cases hnil
    · exact absurd hdeclared (hpre e he)
  · obtain ⟨f, rfl⟩ := hmakes.exists_of_selector
    have hcall := hmakes.callSelector?_eq
    refine ⟨f, List.mem_append_right _ (List.mem_append_left _ ?_), hcall⟩
    rw [Option.filter_some, if_pos (counts_of_callSelector? hcall)]
    exact List.mem_singleton_self _

/-- The functions of a kind come from the declarations of a kind, one each and in order, if this is
so of every declaration that is read. -/
theorem map_fst_filter {P : ContractFunction → Bool} {Q : Declaration → Bool}
    (hread : ∀ {d found r found'}, d.read s found = .ok (r, found') →
      (r.filter (d.counts contract)).any P = Q d)
    (h : trace s contract found ds = .ok (made, found')) :
    (made.filter fun p => P p.2).map Prod.fst = ds.filter Q := by
  induction ds generalizing found made with
  | nil =>
    cases h
    rfl
  | cons d ds ih =>
    obtain ⟨r, next, rest, hd, hrest, rfl⟩ := trace_cons_eq_ok_iff.1 h
    rw [List.filter_append, List.map_append, ih hrest, List.filter_cons, ← hread hd]
    cases r.filter (d.counts contract) with
    | none => rfl
    | some f => cases hf : P f <;> simp [hf]

end Run

section Bases

/-- The declarations of a base, definitions first. -/
def declared (s : Subject) (base : BaseContract) : List Declaration :=
  let nodes := s.trees.nodesOf s.root base.file
  (nodes.filter (isFunctionDefinition base.name)).map (.definition base) ++
    (nodes.filter (isPublicVariable base.name)).map (.stateVariable base)

theorem base_of_mem_declared (h : d ∈ declared s base) : d.base = base := by
  rcases List.mem_append.1 h with h | h
  · obtain ⟨n, -, rfl⟩ := List.mem_map.1 h
    rfl
  · obtain ⟨n, -, rfl⟩ := List.mem_map.1 h
    rfl

theorem node_mem_of_mem_declared (h : d ∈ declared s base) :
    d.node ∈ s.trees.nodesOf s.root base.file := by
  rcases List.mem_append.1 h with h | h
  · obtain ⟨n, hn, rfl⟩ := List.mem_map.1 h
    exact List.mem_of_mem_filter hn
  · obtain ⟨n, hn, rfl⟩ := List.mem_map.1 h
    exact List.mem_of_mem_filter hn

variable {bases : List BaseContract} {fs : List ContractFunction} {ns : List Node}
  {step : Selectors → Node → Except Error (Option ContractFunction × Selectors)}
  {keep : ContractFunction → Bool} {mk : Node → Declaration}

theorem gather_eq_ok_iff (hstep : ∀ found n, step found n = (mk n).read s found)
    (hkeep : ∀ n f, keep f = (mk n).counts contract f) :
    gather step keep found ns = .ok (fs, found') ↔
      ∃ made, trace s contract found (ns.map mk) = .ok (made, found') ∧
        fs = made.map Prod.snd := by
  induction ns generalizing found fs with
  | nil =>
    constructor
    · intro h
      cases h
      exact ⟨[], rfl, rfl⟩
    · rintro ⟨made, h, rfl⟩
      cases h
      rfl
  | cons n ns ih =>
    have hfilter : ∀ r : Option ContractFunction,
        (r.filter keep).toList = ((r.filter ((mk n).counts contract)).toList.map (mk n, ·)).map
          Prod.snd := by
      intro r
      rw [List.map_map, funext (hkeep n)]
      exact (List.map_id _).symm
    rw [gather, hstep, Run.except_bind_eq_ok_iff]
    constructor
    · rintro ⟨⟨r, next⟩, hread, h⟩
      obtain ⟨⟨rest, found'⟩, hrest, h⟩ := Run.except_bind_eq_ok_iff.1 h
      cases h
      obtain ⟨made, hmade, rfl⟩ := ih.1 hrest
      refine ⟨_, trace_cons_eq_ok_iff.2 ⟨r, next, made, hread, hmade, rfl⟩, ?_⟩
      rw [List.map_append, hfilter]
    · rintro ⟨made, h, rfl⟩
      obtain ⟨r, next, rest, hread, hrest, rfl⟩ := trace_cons_eq_ok_iff.1 h
      refine ⟨(r, next), hread, Run.except_bind_eq_ok_iff.2 ⟨(rest.map Prod.snd, found'), ?_⟩⟩
      rw [List.map_append, ← hfilter]
      exact ⟨ih.2 ⟨rest, hrest, rfl⟩, rfl⟩

theorem ofBase_eq_ok_iff :
    ofBase s contract found base = .ok (fs, found') ↔
      ∃ made, trace s contract found (declared s base) = .ok (made, found') ∧
        fs = made.map Prod.snd := by
  have hdefinitions {found next ns gs} := @gather_eq_ok_iff s contract found next gs ns
    (ofDefinition s base) (fun f => f.visibility ≠ .priv || base.name == contract)
    (.definition base) (fun _ _ => rfl) (fun _ _ => rfl)
  have hvariables {found next ns gs} := @gather_eq_ok_iff s contract found next gs ns
    (ofVariable s base) (fun _ => true) (.stateVariable base) (fun _ _ => rfl) (fun _ _ => rfl)
  simp only [ofBase, declared, Run.except_bind_eq_ok_iff, trace_append_eq_ok_iff]
  constructor
  · rintro ⟨⟨gs, next⟩, hgs, ⟨hs, found'⟩, hhs, h⟩
    cases h
    obtain ⟨front, hfront, rfl⟩ := hdefinitions.1 hgs
    obtain ⟨back, hback, rfl⟩ := hvariables.1 hhs
    exact ⟨front ++ back, ⟨front, next, back, hfront, hback, rfl⟩, List.map_append.symm⟩
  · rintro ⟨made, ⟨front, next, back, hfront, hback, rfl⟩, rfl⟩
    refine ⟨(front.map Prod.snd, next), hdefinitions.2 ⟨front, hfront, rfl⟩,
      (back.map Prod.snd, found'), hvariables.2 ⟨back, hback, rfl⟩, ?_⟩
    rw [List.map_append]
    rfl

/-- The functions of all bases are what their declarations make, one after the other. -/
theorem ofBases_eq_ok_iff :
    ofBases s contract found bases = .ok fs ↔
      ∃ made found', trace s contract found (bases.flatMap (declared s)) = .ok (made, found') ∧
        fs = made.map Prod.snd := by
  induction bases generalizing found fs with
  | nil =>
    constructor
    · intro h
      cases h
      exact ⟨[], found, rfl, rfl⟩
    · rintro ⟨made, found', h, rfl⟩
      cases h
      rfl
  | cons base bases ih =>
    simp only [ofBases, Run.except_bind_eq_ok_iff, List.flatMap_cons, trace_append_eq_ok_iff]
    constructor
    · rintro ⟨⟨gs, next⟩, hgs, more, hmore, h⟩
      cases h
      obtain ⟨front, hfront, rfl⟩ := ofBase_eq_ok_iff.1 hgs
      obtain ⟨back, found', hback, rfl⟩ := ih.1 hmore
      exact ⟨front ++ back, found', ⟨front, next, back, hfront, hback, rfl⟩, List.map_append.symm⟩
    · rintro ⟨made, found', ⟨front, next, back, hfront, hback, rfl⟩, rfl⟩
      refine ⟨(front.map Prod.snd, next), ofBase_eq_ok_iff.2 ⟨front, hfront, rfl⟩,
        back.map Prod.snd, ih.2 ⟨back, found', hback, rfl⟩, ?_⟩
      rw [List.map_append]
      rfl

end Bases

section Runs

variable {compiled : String} {ix ix' : SyntaxIndex} {fs : List ContractFunction}

/-- The base list of a contract, and what the declarations of its contracts make. -/
structure Traced (s : Subject) (compiled contract : String) (ix : SyntaxIndex)
    (bases : List BaseContract) (made : List (Declaration × ContractFunction)) : Prop where
  bases_eq_ok : ∃ ix', (Query.baseContracts s.root compiled contract).run.run ix = (.ok bases, ix')
  made_eq_ok : ∃ found, trace s contract [] (bases.flatMap (declared s)) = .ok (made, found)

theorem Traced.bases_eq {bases : List BaseContract} (h : Traced s compiled contract ix bases made)
    (bases' : List BaseContract)
    (hbases :
      ((Query.baseContracts s.root compiled contract).run.run ix).1.toOption = some bases') :
    bases = bases' := by
  obtain ⟨t, ht⟩ := h.bases_eq_ok
  rw [ht] at hbases
  exact Option.some.inj hbases

theorem Traced.unique {bases bases' : List BaseContract}
    {made made' : List (Declaration × ContractFunction)}
    (h : Traced s compiled contract ix bases made)
    (h' : Traced s compiled contract ix bases' made') : bases = bases' ∧ made = made' := by
  obtain ⟨t, ht⟩ := h'.bases_eq_ok
  obtain rfl := h.bases_eq bases' (by rw [ht]; rfl)
  obtain ⟨found, hmade⟩ := h.made_eq_ok
  obtain ⟨found', hmade'⟩ := h'.made_eq_ok
  cases hmade.symm.trans hmade'
  exact ⟨rfl, rfl⟩

/-- The base list starts with the contract itself and lists no contract twice. -/
theorem Traced.exists_eq_cons {bases : List BaseContract}
    (h : Traced s compiled contract ix bases made) :
    ∃ isLibrary rest, bases = ⟨compiled, contract, isLibrary⟩ :: rest ∧ bases.Nodup := by
  obtain ⟨t, hbases⟩ := h.bases_eq_ok
  obtain ⟨n, hn⟩ := Inheritance.exists_basesOf_of_baseContracts hbases
  exact ⟨n.isLibrary, Inheritance.exists_basesOf_eq_cons hn⟩

/-- The functions of a Solidity contract are what the declarations of the base list make. -/
theorem exists_traced_of_collectAll (hlang : s.lang = .solidity)
    (h : (collectAll s compiled contract).run.run ix = (.ok fs, ix')) :
    ∃ bases made, Traced s compiled contract ix bases made ∧ fs = made.map Prod.snd := by
  rw [collectAll, hlang] at h
  obtain ⟨bases, t, hbases, h⟩ := Run.bind_eq_ok_iff.1 h
  obtain ⟨hfs, rfl⟩ := Run.ofExcept_eq_ok_iff.1 h
  obtain ⟨made, found, hmade, rfl⟩ := ofBases_eq_ok_iff.1 hfs
  exact ⟨bases, made, ⟨⟨_, hbases⟩, ⟨found, hmade⟩⟩, rfl⟩

/-- The functions of a Vyper contract are those that the interface describes. -/
theorem mapM_ofEntry_of_collectAll (hlang : s.lang = .vyper)
    (h : (collectAll s compiled contract).run.run ix = (.ok fs, ix')) :
    (s.contract.interface.filter InterfaceEntry.isFunction).mapM (ofEntry s) = .ok fs := by
  rw [collectAll, hlang] at h
  exact (Run.ofExcept_eq_ok_iff.1 h).1

/-- A function that is collected is made by a declaration of the base list or described by an entry
of the interface. -/
theorem collected_cases (h : (collectAll s compiled contract).run.run ix = (.ok fs, ix'))
    (hf : f ∈ fs) :
    (s.lang = .solidity ∧ ∃ bases made found d, Traced s compiled contract ix bases made ∧
      trace s contract [] (bases.flatMap (declared s)) = .ok (made, found) ∧ (d, f) ∈ made) ∨
    ∃ e ∈ s.contract.interface, e.isFunction ∧ ofEntry s e = .ok f := by
  cases hlang : s.lang with
  | solidity =>
    obtain ⟨bases, made, htraced, rfl⟩ := exists_traced_of_collectAll hlang h
    obtain ⟨⟨d, f⟩, hd, rfl⟩ := List.mem_map.1 hf
    obtain ⟨found, hmade⟩ := htraced.made_eq_ok
    exact .inl ⟨rfl, bases, made, found, d, htraced, hmade, hd⟩
  | vyper =>
    obtain ⟨e, he, hentry⟩ := Run.exists_of_mem_mapM (mapM_ofEntry_of_collectAll hlang h) hf
    obtain ⟨he, hfunction⟩ := List.mem_filter.1 he
    exact .inr ⟨e, he, hfunction, hentry⟩

theorem collect_eq_ok_iff :
    (collect s compiled contract).run.run ix = (.ok fs, ix') ↔
      (collectAll s compiled contract).run.run ix = (.ok fs, ix') ∧
        checkComplete s fs = .ok () := by
  rw [collect, Run.bind_eq_ok_iff]
  constructor
  · rintro ⟨gs, t, hgs, h⟩
    obtain ⟨⟨⟩, t', hrun, h⟩ := Run.bind_eq_ok_iff.1 h
    obtain ⟨hcheck, rfl⟩ := Run.ofExcept_eq_ok_iff.1 hrun
    obtain ⟨rfl, rfl⟩ := Run.pure_eq_ok_iff.1 h
    exact ⟨hgs, hcheck⟩
  · rintro ⟨hfs, hcheck⟩
    refine ⟨fs, ix', hfs, Run.bind_eq_ok_iff.2 ⟨(), ix', ?_, rfl⟩⟩
    exact Run.ofExcept_eq_ok_iff.2 ⟨hcheck, rfl⟩

end Runs

/-- A Solidity contract in a compilation of one file, written down. -/
def Subject.ofNodes (file : String) (nodes : List Node) (contract : CompiledContract) :
    Subject where
  trees := (SyntaxIndex.ofNodes file nodes).trees
  root := file
  lang := .solidity
  contract := contract
  types := []

end Catalog

end ContractModel
