import ContractModel.Instrument.Finder
import ContractModel.Proofs.Run
import Mathlib.Data.List.Basic

/-! # The stores of a finder

A finder is assembly that makes one store after the other, each under a flag. In a body every
argument has stores of its own; a modifier has one store for the argument that it logs.
-/

namespace ContractModel.Finder

variable {tools : Toolchain} {id index : Nat} {t : ParameterType} {f : ContractFunction}
  {name : String}

section Stores

/-- What a store logs. -/
inductive Logged where
  | number (n : Nat)
  | value (storage : Bool) (name : String)
  | offset (name : String)
  | length (name : String)
  /-- In place of an argument without a name. -/
  | unnamed
  /-- In place of an offset and a length that assembly cannot read. -/
  | unreadable
  deriving DecidableEq, Repr

def Logged.text (tools : Toolchain) : Logged → String
  | number n => Text.decimal n
  | value storage name => tools.assemblyName storage name
  | offset name => name ++ ".offset"
  | length name => name ++ ".length"
  | unnamed | unreadable => "0"

structure Store where
  flag : Nat
  logged : Logged
  deriving DecidableEq, Repr

def Store.text (tools : Toolchain) (id : Nat) (s : Store) : String :=
  store id s.flag (s.logged.text tools)

/-- The stores one after the other. -/
def written (tools : Toolchain) (id : Nat) (stores : List Store) : String :=
  String.join (stores.map (Store.text tools id))

@[simp] theorem written_nil (tools : Toolchain) (id : Nat) : written tools id [] = "" := rfl

@[simp] theorem written_cons (tools : Toolchain) (id : Nat) (s : Store) (stores : List Store) :
    written tools id (s :: stores) = s.text tools id ++ written tools id stores :=
  String.join_cons

@[simp] theorem written_append (tools : Toolchain) (id : Nat) (stores rest : List Store) :
    written tools id (stores ++ rest) = written tools id stores ++ written tools id rest := by
  rw [written, List.map_append, String.join_append]
  rfl

/-- The stores that every finder begins with. -/
def markers (id : Nat) (arguments : List ParameterType) : List Store :=
  [⟨0, .number (symbol id)⟩, ⟨1, .number (symbolCount arguments)⟩]

theorem opening_eq (tools : Toolchain) (id : Nat) (arguments : List ParameterType) :
    opening id arguments = "assembly \x7b " ++ written tools id (markers id arguments) := by
  simp [opening, markers, Store.text, Logged.text, String.append_assoc]

end Stores

section Arguments

/-- The name under which assembly reads an argument. -/
def readAs (id index : Nat) (name : String) : String :=
  if isInstruction name then copyName id index else name

/-- The declaration of the copy of an argument, if it has one. -/
def copy? (id index : Nat) (t : ParameterType) (name : String) : Option String :=
  if isInstruction name then
    t.declaration.map fun d => d ++ " " ++ copyName id index ++ " = " ++ name ++ ";"
  else none

theorem assemblyArgument_eq_ok {argument : String × Option String}
    (h : assemblyArgument id index t name = .ok argument) :
    argument = (readAs id index name, copy? id index t name) := by
  unfold assemblyArgument at h
  unfold readAs copy?
  cases hname : isInstruction name with
  | false =>
    simp only [hname, Bool.not_false, if_true] at h
    cases h
    rfl
  | true =>
    simp only [hname, Bool.not_true, Bool.false_eq_true, if_false] at h
    split at h
    · cases h
    · next hdeclared =>
      cases h
      rw [hdeclared]
      rfl

/-- A copy has a name, and so has an argument that is named after an instruction. -/
theorem readAs_eq_empty_iff : readAs id index name = "" ↔ name = "" := by
  unfold readAs
  split
  · next hname =>
    constructor
    · intro h
      simp [copyName] at h
    · rintro rfl
      exact absurd hname (by decide)
  · rfl

/-- The stores of an argument that assembly reads under the name. -/
def argumentStores (tools : Toolchain) (index : Nat) (t : ParameterType) (name : String) :
    List Store :=
  if t.isDecomposed then
    if tools.hasCalldataAccessors name then
      [⟨offsetFlag + index, .offset name⟩, ⟨lengthFlag + index, .length name⟩]
    else [⟨placeholderFlag + index, .unreadable⟩]
  else if name.isEmpty then [⟨unnamedFlag + index, .unnamed⟩]
  else [⟨argumentFlag + index, .value t.isStorage name⟩]

theorem logArgument_eq (tools : Toolchain) (id index : Nat) (t : ParameterType) (name : String) :
    logArgument tools id index t name = written tools id (argumentStores tools index t name) := by
  unfold logArgument argumentStores
  split
  · split <;> simp [Store.text, Logged.text]
  · split <;> simp [Store.text, Logged.text]

/-- The arguments that have a name, perhaps an empty one, with their indices. -/
def named (f : ContractFunction) : List ((ParameterType × String) × Nat) :=
  (f.arguments.zip f.parameterNames).zipIdx

/-- All copies are declared, and all arguments have their stores. -/
theorem logArguments_eq_ok {start : Nat} {ts : List ParameterType} {names : List String}
    {logged : List String × String} (h : logArguments tools id start ts names = .ok logged) :
    ts.length ≤ names.length ∧
      logged.1 = ((ts.zip names).zipIdx start).filterMap (fun a => copy? id a.2 a.1.1 a.1.2) ∧
      logged.2 = written tools id (((ts.zip names).zipIdx start).flatMap fun a =>
        argumentStores tools a.2 a.1.1 (readAs id a.2 a.1.2)) := by
  induction ts generalizing start names logged with
  | nil =>
    cases h
    simp
  | cons t ts ih =>
    cases names with
    | nil => cases h
    | cons name names =>
      obtain ⟨argument, hargument, h⟩ := Run.except_bind_eq_ok_iff.1 h
      obtain rfl := assemblyArgument_eq_ok hargument
      obtain ⟨rest, hrest, h⟩ := Run.except_bind_eq_ok_iff.1 h
      cases h
      obtain ⟨hlength, hcopies, hstores⟩ := ih hrest
      refine ⟨Nat.succ_le_succ hlength, ?_, ?_⟩
      · rw [List.zip_cons_cons, List.zipIdx_cons, List.filterMap_cons, ← hcopies]
        dsimp only
        cases copy? id start t name <;> rfl
      · rw [List.zip_cons_cons, List.zipIdx_cons, List.flatMap_cons, written_append, ← hstores,
          logArgument_eq]

end Arguments

section Body

/-- The declarations in front of a finder in a body. -/
def copies (id : Nat) (f : ContractFunction) : List String :=
  (named f).filterMap fun a => copy? id a.2 a.1.1 a.1.2

/-- The stores for all arguments. -/
def bodyArguments (tools : Toolchain) (id : Nat) (f : ContractFunction) : List Store :=
  (named f).flatMap fun a => argumentStores tools a.2 a.1.1 (readAs id a.2 a.1.2)

def bodyStores (tools : Toolchain) (id : Nat) (f : ContractFunction) : List Store :=
  markers id f.arguments ++ bodyArguments tools id f

/-- Assembly that makes the stores. -/
def assembly (tools : Toolchain) (id : Nat) (stores : List Store) : String :=
  "assembly \x7b " ++ (written tools id stores ++ "\x7d")

theorem inBody_eq_ok {text : String} (h : inBody f id tools = .ok text) :
    f.arguments.length ≤ f.parameterNames.length ∧
      text = joinRenamings (copies id f) ++ assembly tools id (bodyStores tools id f) := by
  obtain ⟨logged, hlogged, h⟩ := Run.except_bind_eq_ok_iff.1 h
  obtain ⟨hlength, hcopies, hstores⟩ := logArguments_eq_ok hlogged
  cases h
  refine ⟨hlength, ?_⟩
  rw [hcopies, hstores, opening_eq tools]
  simp only [copies, named, assembly, bodyStores, bodyArguments, written_append,
    String.append_assoc]

end Body

section Modifier

/-- The store for the argument that a modifier logs, which assembly reads under the name. -/
def modifierStore (before : Nat) (t : ParameterType) (name : String) : Store :=
  if t.isDecomposed then ⟨modifierOffsetFlag + before, .offset name⟩
  else ⟨modifierArgumentFlag + before, .value t.isStorage name⟩

def modifierStores (tools : Toolchain) (id : Nat) (f : ContractFunction) : List Store :=
  markers id f.arguments ++
    match lastLoggable tools f with
    | none => [⟨2, .number (typeLayout f.arguments)⟩]
    | some ((t, name), index) =>
      [⟨3, .number (typeLayout f.arguments)⟩,
        modifierStore (symbolCount (f.arguments.take index)) t (readAs id index name)]

/-- What stands in front of the assembly of a modifier. -/
def modifierHead (tools : Toolchain) (id : Nat) (f : ContractFunction) : String :=
  "modifier " ++ ("logInternal" ++ Text.decimal id) ++
    match lastLoggable tools f with
    | none => "() \x7b"
    | some ((t, name), index) => "(" ++ t.declaration.getD t.base ++ " " ++ name ++ ") \x7b " ++
      joinRenamings (copy? id index t name).toList

theorem asModifier_eq_ok {m : ModifierFinder} (h : asModifier f id tools = .ok m) :
    m.definition =
      modifierHead tools id f ++ (assembly tools id (modifierStores tools id f) ++ " _; \x7d") := by
  unfold asModifier at h
  unfold modifierHead modifierStores
  cases hlast : lastLoggable tools f with
  | none =>
    rw [hlast] at h
    cases h
    simp [opening_eq tools, assembly, Store.text, Logged.text, String.append_assoc]
  | some last =>
    obtain ⟨⟨t, name⟩, index⟩ := last
    rw [hlast] at h
    obtain ⟨argument, hargument, h⟩ := Run.except_bind_eq_ok_iff.1 h
    obtain rfl := assemblyArgument_eq_ok hargument
    cases h
    by_cases hparts : t.isDecomposed = true <;>
      simp [hparts, opening_eq tools, assembly, modifierStore, Store.text, Logged.text,
        String.append_assoc]

end Modifier

end ContractModel.Finder
