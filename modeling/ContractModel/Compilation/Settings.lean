import ContractModel.Error
import ContractModel.Json.Schema
import ContractModel.Language
import ContractModel.Text.Search

/-! # Compiler settings

What the compiler is asked for and how it optimizes, also as read from its command line flags.
-/

namespace ContractModel

structure Optimizer where
  enabled : Bool
  runs : Option Nat
  deriving DecidableEq, Repr

namespace Optimizer

def withRuns (runs : Option Nat) : Optimizer := ⟨true, runs⟩

def read (w : Json.Written) : Option Optimizer := do
  let ms ← Json.Schema.record ["enabled", "runs"] w
  return {
    enabled := ← Json.Schema.required "enabled" Json.Written.asBool? ms
    runs := ← Json.Schema.optional "runs" Json.Written.asWord? ms }

def json (o : Optimizer) : Json :=
  .object ([("enabled", .bool o.enabled)] ++ Json.member? "runs" .ofNat o.runs)

end Optimizer

structure Settings where
  remappings : Option (List String)
  outputSelection : Json
  evmVersion : Option String
  optimizer : Option Optimizer
  viaIR : Option Bool

namespace Settings

/-- Without remappings, and without the intermediate representation, nothing is said of them. -/
def standard (lang : Language) (remappings : List String) (evmVersion : Option String)
    (optimizer : Option Optimizer) (viaIR : Bool) : Settings where
  remappings := if remappings.isEmpty then none else some remappings
  outputSelection := lang.outputSelection
  evmVersion := evmVersion
  optimizer := optimizer
  viaIR := if viaIR then some true else none

def read (w : Json.Written) : Option Settings := do
  let ms ← Json.Schema.record
    ["remappings", "outputSelection", "evmVersion", "optimizer", "viaIR"] w
  return {
    remappings := ← Json.Schema.optional "remappings" (Json.Schema.list Json.Written.asString?) ms
    outputSelection := ← Json.Schema.required "outputSelection" Json.Schema.any ms
    evmVersion := ← Json.Schema.optional "evmVersion" Json.Written.asString? ms
    optimizer := ← Json.Schema.optional "optimizer" Optimizer.read ms
    viaIR := ← Json.Schema.optional "viaIR" Json.Written.asBool? ms }

def json (s : Settings) : Json :=
  .object (Json.member? "remappings" Json.ofStrings s.remappings ++
    [("outputSelection", s.outputSelection)] ++ Json.member? "evmVersion" .string s.evmVersion ++
    Json.member? "optimizer" Optimizer.json s.optimizer ++ Json.member? "viaIR" .bool s.viaIR)

/-- What the flags read so far say. -/
structure Flags where
  evmVersion : Option String
  optimize : Bool
  runs : Option Nat
  viaIR : Bool
  deriving DecidableEq, Repr

/-- Reads flags; a value follows its flag behind an equals sign or as the next argument. -/
def readFlags (f : Flags) : List String → Except ToolFault Flags
  | [] => .ok f
  | argument :: rest =>
    let (flag, inline?) := match Text.splitOnce "=" argument with
      | some (flag, value) => (flag, some value)
      | none => (argument, none)
    if flag = "--optimize" then readFlags { f with optimize := true } rest
    else if flag = "--via-ir" then readFlags { f with viaIR := true } rest
    else if flag = "--evm-version" ∨ flag = "--optimize-runs" then
      let store (value : String) : Except ToolFault Flags :=
        if flag = "--evm-version" then .ok { f with evmVersion := some value }
        else
          match Text.readWord value with
          | .ok n => .ok { f with optimize := true, runs := some n }
          | .error fault => .error (.optimizeRuns value fault)
      match inline?, rest with
      | some value, rest => do readFlags (← store value) rest
      | none, value :: rest => do readFlags (← store value) rest
      | none, [] => .error (.flagWithoutValue flag)
    else readFlags f rest

/-- The settings that flags ask for; unknown flags are ignored. -/
def ofArguments (lang : Language) (remappings arguments : List String) :
    Except ToolFault Settings := do
  let f ← readFlags ⟨none, false, none, false⟩ arguments
  return standard lang remappings f.evmVersion
    (if f.optimize then some (.withRuns f.runs) else none) f.viaIR

end Settings

end ContractModel
