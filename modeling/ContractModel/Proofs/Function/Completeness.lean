import ContractModel.Proofs.Function.Collection

/-! # Completeness of the interface

A collection is refused if it has not as many interface functions as the interface itself. The
constructors are left out of both numbers: on one side by their exact name, on the other by what
their signatures start with. So where functions and entries correspond, a collection is refused
exactly for a function whose longer name starts with `constructor`.
-/

namespace ContractModel.Catalog

open InterfaceEntry (constructorName)

/-- Each function of the interface is collected once, under a signature of its entry. -/
def OneToOne (s : Subject) (fs : List ContractFunction) : Prop :=
  ∃ entries : List InterfaceEntry,
    entries.Perm (s.contract.interface.filter InterfaceEntry.isFunction) ∧
    List.Forall₂
      (fun e f => f.sourceSignature = e.sourceSignature ∨ f.signature = e.sourceSignature)
      entries (fs.filter fun f => f.isInInterface && !f.isConstructor)

variable {s : Subject} {compiled contract : String} {ix ix' : SyntaxIndex}
  {fs : List ContractFunction} {f : ContractFunction}

theorem prefix_append_cons_iff {α : Type} {start front back : List α} {a : α} (h : a ∉ start) :
    start <+: front ++ a :: back ↔ start <+: front := by
  induction start generalizing front with
  | nil => simp
  | cons b start ih =>
    rw [List.mem_cons, not_or] at h
    cases front with
    | nil => simp [Ne.symm h.1]
    | cons c front => rw [List.cons_append, List.cons_prefix_cons, List.cons_prefix_cons, ih h.2]

/-- A signature starts with `constructor` exactly when its name does. -/
theorem hasPrefix_constructorName_iff (name rest : String) :
    Text.hasPrefix constructorName (name ++ "(" ++ rest) ↔ Text.hasPrefix constructorName name := by
  rw [Text.hasPrefix_iff, Text.hasPrefix_iff, String.toList_append, String.toList_append,
    List.append_assoc]
  exact prefix_append_cons_iff (by decide)

theorem hasPrefix_signatureWith_iff (format : ParameterType → String) (name : String)
    (arguments : List ParameterType) :
    Text.hasPrefix constructorName (ContractFunction.signatureWith format name arguments) ↔
      Text.hasPrefix constructorName name := by
  rw [ContractFunction.signatureWith, String.append_assoc]
  exact hasPrefix_constructorName_iff _ _

theorem hasPrefix_of_isConstructor {e : InterfaceEntry} (h : e.isConstructor) :
    Text.hasPrefix constructorName e.sourceSignature := by
  rw [InterfaceEntry.sourceSignature, InterfaceEntry.signatureName, if_pos h, String.append_assoc]
  exact (hasPrefix_constructorName_iff _ _).2 (by decide)

/-- Constructors are collected under the name that the count looks for. -/
theorem name_of_isConstructor_of_collectAll
    (h : (collectAll s compiled contract).run.run ix = (.ok fs, ix')) (hf : f ∈ fs)
    (hconstructor : f.isConstructor) : f.name = constructorName := by
  rcases collected_cases h hf with ⟨-, bases, made, found, d, -, hmade, hd⟩ | ⟨e, -, -, he⟩
  · obtain ⟨selector, hmakes, -⟩ := makes_of_mem hmade hd
    exact hmakes.name_of_isConstructor hconstructor
  · obtain ⟨arguments, -, he⟩ := Run.except_bind_eq_ok_iff.1 he
    obtain ⟨σ, -, he⟩ := Run.except_bind_eq_ok_iff.1 he
    obtain ⟨results, -, he⟩ := Run.except_bind_eq_ok_iff.1 he
    cases he
    cases hconstructor

section Count

variable {α : Type} {l : List α} {p q : α → Bool}

theorem countP_eq_countP_iff (h : ∀ a ∈ l, q a → p a) :
    l.countP p = l.countP q ↔ ∀ a ∈ l, p a → q a := by
  have hq : l.countP q = (l.filter p).countP q := by
    rw [List.countP_filter]
    refine List.countP_congr fun a ha => ?_
    rw [Bool.and_eq_true]
    exact ⟨fun hqa => ⟨hqa, h a ha hqa⟩, And.left⟩
  rw [hq, List.countP_eq_length_filter, eq_comm, List.countP_eq_length]
  simp only [List.mem_filter, and_imp]

end Count

/-- The collected functions that count are those not named as constructors are. -/
theorem length_collected
    (hname : ∀ f ∈ fs, f.isConstructor → f.name = constructorName) :
    (fs.filter fun f => f.isInInterface && f.name != constructorName).length =
      (fs.filter fun f => f.isInInterface && !f.isConstructor).countP
        fun f => f.name != constructorName := by
  rw [← List.countP_eq_length_filter, List.countP_filter]
  refine List.countP_congr fun f hf => ?_
  cases hconstructor : f.isConstructor with
  | false => simp [and_comm]
  | true => simp [hname f hf hconstructor]

/-- The signatures that count are those of the functions that do not start like constructors. -/
theorem length_expected :
    (s.interfaceSignatures.filter fun signature =>
        !Text.hasPrefix constructorName signature).length =
      (s.contract.interface.filter InterfaceEntry.isFunction).countP
        fun e => !Text.hasPrefix constructorName e.sourceSignature := by
  rw [← List.countP_eq_length_filter, Subject.interfaceSignatures,
    CompiledContract.sourceSignatures, List.countP_map, List.countP_filter, List.countP_filter]
  refine List.countP_congr fun e _ => ?_
  cases hconstructor : e.isConstructor with
  | false => simp
  | true => simp [hasPrefix_of_isConstructor hconstructor]

/-- Functions that correspond to entries count where their names do not start like constructors. -/
theorem countP_of_oneToOne (h : OneToOne s fs) :
    (s.contract.interface.filter InterfaceEntry.isFunction).countP
        (fun e => !Text.hasPrefix constructorName e.sourceSignature) =
      (fs.filter fun f => f.isInInterface && !f.isConstructor).countP
        fun f => !Text.hasPrefix constructorName f.name := by
  obtain ⟨entries, hperm, hall⟩ := h
  rw [← hperm.countP_eq]
  clear hperm
  generalize (fs.filter fun f => f.isInInterface && !f.isConstructor) = collected at hall ⊢
  induction hall with
  | nil => rfl
  | @cons e f entries collected hsignature _ ih =>
    have hprefix : Text.hasPrefix constructorName e.sourceSignature =
        Text.hasPrefix constructorName f.name := by
      rw [Bool.eq_iff_iff]
      rcases hsignature with heq | heq
      · rw [← heq]
        exact hasPrefix_signatureWith_iff _ _ _
      · rw [← heq]
        exact hasPrefix_signatureWith_iff _ _ _
    rw [List.countP_cons, List.countP_cons, ih, hprefix]

theorem checkComplete_eq_ok_iff :
    checkComplete s fs = .ok () ↔
      (fs.filter fun f => f.isInInterface && f.name != constructorName).length =
        (s.interfaceSignatures.filter fun signature =>
          !Text.hasPrefix constructorName signature).length := by
  rw [checkComplete, List.length_map]
  split
  · next heq => simp [heq]
  · next hne => simp [hne]

/-- A collection that corresponds to the interface is accepted exactly when no function but one
named `constructor` has a name that starts so. -/
theorem collect_eq_ok_iff_of_oneToOne
    (h : (collectAll s compiled contract).run.run ix = (.ok fs, ix')) (hone : OneToOne s fs) :
    (collect s compiled contract).run.run ix = (.ok fs, ix') ↔
      ∀ f ∈ fs, f.isInInterface → ¬ f.isConstructor →
        Text.hasPrefix constructorName f.name → f.name = constructorName := by
  have hname := fun f hf => name_of_isConstructor_of_collectAll (f := f) h hf
  -- whoever is named like a constructor has a name that starts so, and the converse is the question
  have hstarts : ∀ f : ContractFunction, (!Text.hasPrefix constructorName f.name) = true →
      (f.name != constructorName) = true := by
    intro f hf
    rw [bne_iff_ne]
    intro heq
    rw [heq] at hf
    exact absurd hf (by decide)
  rw [collect_eq_ok_iff, checkComplete_eq_ok_iff, length_collected hname, length_expected,
    countP_of_oneToOne hone, countP_eq_countP_iff fun f _ => hstarts f]
  simp only [h, true_and, List.mem_filter, Bool.and_eq_true, Bool.not_eq_true', bne_iff_ne, and_imp,
    Bool.not_eq_true]
  refine forall₄_congr fun f _ _ _ => ?_
  cases Text.hasPrefix constructorName f.name <;> simp

section Factory

/-! A contract `Factory` with one function that has no arguments. -/

variable (name reported : String)

def factoryNodes : List Node :=
  [.ofContract 1 "Factory" [],
    .ofFunction 10 "Factory" name "external" [("functionSelector", .string reported)]]

def factoryIndex : SyntaxIndex := .ofNodes "/Factory.sol" (factoryNodes name reported)

def factory : Subject :=
  .ofNodes "/Factory.sol" (factoryNodes name reported) {
    interface := [⟨"function", some name, [], [], none, none⟩]
    storageLayout := none
    machine := none }

theorem oneToOne_factory
    (h : fs.map (fun f => (f.sourceSignature, f.isInInterface, f.isConstructor)) =
      [(name ++ "()", true, false)]) : OneToOne (factory name reported) fs := by
  obtain ⟨f, rfl, hf⟩ := List.map_eq_singleton_iff.1 h
  simp only [Prod.mk.injEq] at hf
  obtain ⟨hsignature, hinterface, hconstructor⟩ := hf
  refine ⟨(factory name reported).contract.interface, .refl _, ?_⟩
  rw [List.filter_cons_of_pos (by simp [hinterface, hconstructor])]
  refine .cons (.inl ?_) .nil
  change f.sourceSignature = name ++ "(" ++ "" ++ ")"
  rw [hsignature, String.append_assoc, String.append_assoc]
  rfl

end Factory

/-- A function with an ordinary name is accepted. -/
theorem collect_factory_args : ∃ fs ix',
    (collectAll (factory "args" "4e9b75b6") "/Factory.sol" "Factory").run.run
      (factoryIndex "args" "4e9b75b6") = (.ok fs, ix') ∧
    OneToOne (factory "args" "4e9b75b6") fs ∧
    (collect (factory "args" "4e9b75b6") "/Factory.sol" "Factory").run.run
      (factoryIndex "args" "4e9b75b6") = (.ok fs, ix') := by
  have hrun : ((collectAll (factory "args" "4e9b75b6") "/Factory.sol" "Factory").run.run
      (factoryIndex "args" "4e9b75b6")).1.toOption.map (fun fs =>
        (fs.map fun f => (f.sourceSignature, f.isInInterface, f.isConstructor),
          fs.map ContractFunction.name)) = some ([("args" ++ "()", true, false)], ["args"]) := by
    decide +kernel
  obtain ⟨fs, ix', hfs, hshape⟩ := Run.exists_of_map_eq_some hrun
  obtain ⟨hshape, hnames⟩ := Prod.mk.inj hshape
  have hone := oneToOne_factory "args" "4e9b75b6" hshape
  refine ⟨fs, ix', hfs, hone, (collect_eq_ok_iff_of_oneToOne hfs hone).2 ?_⟩
  intro f hf _ _ hprefix
  have hname : f.name ∈ ["args"] := hnames ▸ List.mem_map_of_mem hf
  rw [List.mem_singleton.1 hname] at hprefix
  exact absurd hprefix (by decide)

/-- A function `constructorArgs` is collected under its entry's signature, and refused. -/
theorem not_collect_factory_constructorArgs : ∃ fs ix',
    (collectAll (factory "constructorArgs" "6e16bad2") "/Factory.sol" "Factory").run.run
      (factoryIndex "constructorArgs" "6e16bad2") = (.ok fs, ix') ∧
    OneToOne (factory "constructorArgs" "6e16bad2") fs ∧
    ¬ ∃ fs ix', (collect (factory "constructorArgs" "6e16bad2") "/Factory.sol" "Factory").run.run
      (factoryIndex "constructorArgs" "6e16bad2") = (.ok fs, ix') := by
  have hrun : ((collectAll (factory "constructorArgs" "6e16bad2") "/Factory.sol" "Factory").run.run
      (factoryIndex "constructorArgs" "6e16bad2")).1.toOption.map (fun fs =>
        fs.map fun f => (f.sourceSignature, f.isInInterface, f.isConstructor)) =
          some [("constructorArgs" ++ "()", true, false)] := by decide +kernel
  obtain ⟨fs, ix', hfs, hshape⟩ := Run.exists_of_map_eq_some hrun
  refine ⟨fs, ix', hfs, oneToOne_factory _ _ hshape, ?_⟩
  rintro ⟨gs, t, hgs⟩
  have hnone : ((collect (factory "constructorArgs" "6e16bad2") "/Factory.sol" "Factory").run.run
      (factoryIndex "constructorArgs" "6e16bad2")).1.toOption.isNone := by decide +kernel
  rw [hgs] at hnone
  cases hnone

end ContractModel.Catalog
