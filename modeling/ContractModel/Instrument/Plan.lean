import ContractModel.Instrument.Edit
import ContractModel.Instrument.Finder
import ContractModel.Model.Unit
import ContractModel.Syntax.Index

/-! # Planning function finders

Each instrumentable function of a unit gets a finder and the edits that write it: into the body, or
as a modifier behind the definition with its invocation in front of the other modifiers. A body that
has an edit already is left alone.
-/

namespace ContractModel

/-- The finder of a function: the number it got, and the edits that write it, with their offsets.
The first edit holds the finder. -/
structure Placement where
  id : Nat
  function : ContractFunction
  file : String
  edits : List (Nat × Edit)

namespace Placement

/-- The key of the finder. -/
def symbol (p : Placement) : String := "0x" ++ Text.hexadecimal (Finder.symbol p.id)

/-- The places that the edits take. -/
def sites (p : Placement) : List (String × Nat) := p.edits.map fun e => (p.file, e.1)

end Placement

structure FinderPlan where
  /-- The functions that have a finder, by symbol. -/
  finders : SortedMap String ContractFunction
  edits : SourceEdits

namespace FinderPlan

def empty : FinderPlan := ⟨∅, ∅⟩

/-- Planning takes numbers from a counter, also when it fails. -/
abbrev Planning := ExceptT InstrumentError (StateM Nat)

def nextNumber : Planning Nat := do
  let n ← get
  set (n + 1)
  return n

/-- Sets the edit at a byte of a file. -/
def edit (edits : SourceEdits) (file : String) (offset : Nat) (e : Edit) : SourceEdits :=
  edits.insert file ((edits.getD file ∅).insert offset e)

/-- Adds a finder to a plan. -/
def place (plan : FinderPlan) (p : Placement) : FinderPlan where
  finders := plan.finders.insert p.symbol p.function
  edits := p.edits.foldl (fun es e => edit es p.file e.1 e.2) plan.edits

def ofPlacements (ps : List Placement) : FinderPlan := ps.foldl place empty

/-- Where a modifier invocation stands, and its name. -/
def modifierStart (invocation : Json) : Option (Nat × String) := do
  if (invocation.get? "nodeType").bind Json.asString? ≠ some "ModifierInvocation" then none
  let range ← (SourceRange.parse (← (← invocation.get? "src").asString?)).toOption
  return (range.start, ← (← (← invocation.get? "modifierName").get? "name").asString?)

/-- The first of two places in the source. -/
def firstOf (found : Option (Nat × String)) (next : Nat × String) : Option (Nat × String) :=
  match found with
  | none => some next
  | some first => if next.1 < first.1 then some next else some first

/-- The modifier invocation that stands first in the source, if all can be read. -/
def firstModifier (invocations : List Json) : Option (Nat × String) := do
  let starts ← invocations.mapM modifierStart
  starts.foldl firstOf none

def brace : UInt8 := 0x7b
def closingBrace : UInt8 := 0x7d

/-- The edits that write a function's finder. -/
def editsOf (f : ContractFunction) (definition : Node) (id : Nat) (tools : Toolchain)
    (bodyStart : Nat) : Except InstrumentError (List (Nat × Edit)) :=
  let invocations := definition.items "modifiers"
  if invocations.isEmpty then do
    let finder ← Finder.inBody f id tools
    return [(bodyStart, ⟨brace, finder, .insertAfter⟩)]
  else do
    let finder ← Finder.asModifier f id tools
    match definition.src?.bind SourceRange.last, firstModifier invocations with
    | some definitionEnd, some (start, name) =>
      match FileTree.textBytes name with
      | [] => throw (.modifier f.sourceSignature)
      | expected :: _ =>
        return [(definitionEnd, ⟨closingBrace, finder.definition, .insertAfter⟩),
          (start, ⟨expected, finder.invocation ++ " ", .insertBefore⟩)]
    | _, _ => throw (.modifier f.sourceSignature)

/-- The function that is to have a finder, with its definition and the place of its body. -/
structure Target where
  file : String
  bodyStart : Nat
  definition : Node

/-- What a function's finder is written into. There is none for a function without a body, and a
body that has an edit already is left alone. -/
def target? (ts : Trees) (current : String) (u : BuildUnit) (contract : String)
    (placed : List Placement) (f : ContractFunction) : Except InstrumentError (Option Target) :=
  if f.isConstructor || f.hasFunctionArgument then .ok none
  else
    match f.location with
    | none =>
      if f.implemented then .error (.noLocation f.sourceSignature contract) else .ok none
    | some location =>
      let file := Path.normalize current location.file
      if f.arguments.length ≠ f.parameterNames.length then
        .error (.noParameterNames f.sourceSignature contract)
      else if placed.any fun p => p.sites.contains (file, location.src.start) then .ok none
      else
        match f.nodeId with
        | none => .error (.noNodeId f.sourceSignature)
        | some nodeId =>
          match (ts.unit? u.originFile location.file).bind fun t => t.get? nodeId with
          | none => .error (.noDefinition f.sourceSignature nodeId)
          | some definition => .ok (some ⟨file, location.src.start, definition⟩)

/-- Places the finder of a function of a contract. -/
def addFunction (ts : Trees) (current : String) (u : BuildUnit) (contract : String)
    (placed : List Placement) (f : ContractFunction) : Planning (List Placement) := do
  match ← ofExcept (target? ts current u contract placed f) with
  | none => return placed
  | some target =>
    let id ← nextNumber
    let edits ← ofExcept (editsOf f target.definition id u.toolchain target.bodyStart)
    return placed ++ [⟨id, f, target.file, edits⟩]

def addContract (ts : Trees) (current : String) (u : BuildUnit) (placed : List Placement)
    (c : ContractRecord) : Planning (List Placement) :=
  c.instrumentable.foldlM (addFunction ts current u c.name) placed

/-- The finders of all functions of a unit, in the order of their numbers. -/
def placements (ts : Trees) (current : String) (u : BuildUnit) : Planning (List Placement) :=
  u.contracts.foldlM (addContract ts current u) []

/-- The plan that places the finders of a unit one after the other. -/
def ofUnit (ts : Trees) (current : String) (u : BuildUnit) : Planning FinderPlan := do
  return ofPlacements (← placements ts current u)

end FinderPlan

end ContractModel
