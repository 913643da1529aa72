import ContractModel.Build.State
import ContractModel.Link.Slot

/-! # Links

A link sets a variable of a contract to the address of another: an immutable in the bytecode or a
slot in the storage. A struct link names a field of a struct, or a slot, that holds an address
wherever the struct occurs.
-/

namespace ContractModel

namespace BuildModel

/-- The key of the only unit with the primary contract. -/
def uniqueKey (m : BuildModel) (contract : String) : Except Error String :=
  match m.keysOf contract with
  | [] => .error (.input (.noLinkContract contract))
  | [key] => .ok key
  | keys => .error (.inconsistency (.severalUnits contract keys))

/-- What a link points to: the address of a contract of the model, or else the destination itself.
Hexadecimal destinations of plain links lose their leading zeros. -/
def destination (m : BuildModel) (isPlain : Bool) (text : String) : String :=
  match m.addressOf? text with
  | some address => address
  | none => if isPlain && Slot.isHex text then (Slot.normalize text).getD text else text

end BuildModel

namespace BuildUnit

/-- The positions of the contracts with the name that have the immutable. -/
def immutableHolders (u : BuildUnit) (contract variableName : String) : List Nat :=
  (u.contracts.zipIdx.filter fun (c, _) =>
    c.name == contract && c.immutables.any fun i => i.variableName == variableName).map Prod.snd

/-- The unit with an immutable of the contract at a position set. -/
def presetImmutable (u : BuildUnit) (holder : Nat) (variableName value : String) : BuildUnit :=
  let preset (i : Immutable) := if i.variableName == variableName then i.preset value else i
  { u with contracts := u.contracts.modify holder fun c =>
      { c with immutables := c.immutables.map preset } }

/-- The layouts of the contracts with the name. -/
def storageLayouts (u : BuildUnit) (contract : String) : List Json :=
  (u.contracts.filter fun c => c.name == contract).filterMap ContractRecord.storageLayout

end BuildUnit

namespace Links

def isNumber (reference : String) : Bool := Slot.isDecimal reference || Slot.isHex reference

/-- The slot of a variable in the assembly listing of the unit's source. -/
def slotFromAssembly (setting : BuildSetting) (u : BuildUnit) (contract name : String) :
    Build String := do
  let config := setting.config
  let configFile := config.contractToFile.getD contract u.originFile
  let executable := config.compilerFor configFile (.ofPath configFile)
  let arguments ← Build.tool config.extraArguments
  let assembly ← Build.request setting
    (.assembly executable u.originFile (config.remappings ++ arguments) config.path)
  ofExcept (Slot.ofAssembly contract name assembly)

/-- The slot of a variable, from the storage layout if there is exactly one. -/
def slotOf (setting : BuildSetting) (u : BuildUnit) (contract name : String) : Build String :=
  match u.storageLayouts contract with
  | [layout] => do
    match ← ofExcept (Slot.ofLayout contract name layout) with
    | some slot => return slot
    | none => slotFromAssembly setting u contract name
  | _ => slotFromAssembly setting u contract name

def update (key : String) (change : BuildUnit → BuildUnit) : Build Unit :=
  Build.onModel fun m => m.modify key change

/-- Sets the slot that a directive refers to. -/
def setSlot (setting : BuildSetting) (key : String) (u : BuildUnit) (d : LinkDirective)
    (destination : String) : Build Unit := do
  let slot ←
    if isNumber d.reference then
      match Slot.normalize d.reference with
      | some slot => pure slot
      | none => throw (.input (.linkSlot d.reference d.text))
    else slotOf setting u d.contract d.reference
  update key fun u => { u with state := u.state.insert slot destination }

/-- Follows a link directive. -/
def apply (setting : BuildSetting) (d : LinkDirective) : Build Unit := do
  let m := (← get).model
  let key ← ofExcept (m.uniqueKey d.contract)
  let destination := m.destination true d.destination
  match m.get? key with
  | none => throw (.input (.noLinkContract d.contract))
  | some u =>
    match u.immutableHolders d.contract d.reference with
    | [] => setSlot setting key u d destination
    | [holder] => update key fun u => u.presetImmutable holder d.reference destination
    | holders => throw (.inconsistency (.severalImmutables d.reference holders))

/-- Follows a struct link directive. -/
def applyStruct (d : LinkDirective) : Build Unit := do
  let m := (← get).model
  let key ← ofExcept (m.uniqueKey d.contract)
  let destination := m.destination false d.destination
  if isNumber d.reference then
    match Slot.normalize d.reference with
    | some slot =>
      update key fun u =>
        { u with legacyStructLinks := u.legacyStructLinks.insert slot destination }
    | none => throw (.input (.structLinkSlot d.reference d.text))
  else
    update key fun u => { u with structLinks := u.structLinks.insert d.reference destination }

/-- Follows all link directives, then all struct link directives. -/
def applyAll (setting : BuildSetting) : Build Unit := do
  (← ofExcept setting.config.links).forM (apply setting)
  (← ofExcept setting.config.structLinks).forM applyStruct

end Links

end ContractModel
