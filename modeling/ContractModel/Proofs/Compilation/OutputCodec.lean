import ContractModel.Compilation.Output
import ContractModel.Proofs.Interface.Codec

/-! # Reading written compiler outputs

Every record of a compiler output is read again from what it is written as. What it leaves open are
the storage layout, the source map and the syntax tree, which may be any value.
-/

namespace ContractModel

open Json Json.Schema

namespace ByteRange

def fields : List (RecordField ByteRange) :=
  [⟨start, codec_word.required "start"⟩, ⟨length, codec_word.required "length"⟩]

theorem read_object_iff {ms : Fields} {r : ByteRange} :
    ByteRange.read (.object ms) = some r ↔ fields.Forall fun f => f.read ms = some (f.get r) := by
  cases r
  simp [ByteRange.read, record, Option.bind_eq_some_iff, fields]

theorem codec : Codec ByteRange.read ByteRange.read ByteRange.json 0 :=
  .ofFields fields (fun _ => rfl) rfl (fun _ _ => read_object_iff.1) (fun _ _ => read_object_iff)
    (fun _ => rfl) (by decide) (by decide)

end ByteRange

namespace Bytecode

theorem codec_linkReferences :
    Codec LinkReferences.read LinkReferences.read LinkReferences.json 0 :=
  ByteRange.codec.list.map.map

def fields : List (RecordField Bytecode) :=
  [⟨object, codec_string.defaulted "object" readable_empty⟩,
    ⟨sourceMap, codec_any.optional "sourceMap"⟩,
    ⟨linkReferences, codec_linkReferences.optional "linkReferences"⟩,
    ⟨immutableReferences, ByteRange.codec.list.map.optional "immutableReferences"⟩]

theorem read_object_iff {ms : Fields} {b : Bytecode} :
    Bytecode.read (.object ms) = some b ↔ fields.Forall fun f => f.read ms = some (f.get b) := by
  cases b
  simp [Bytecode.read, record, Option.bind_eq_some_iff, fields]

theorem codec : Codec Bytecode.read Bytecode.read Bytecode.json 0 :=
  .ofFields fields (fun _ => rfl) rfl (fun _ _ => read_object_iff.1) (fun _ _ => read_object_iff)
    (fun _ => by simp [Bytecode.json, membersOf, fields]) (by decide) (by decide)

end Bytecode

namespace Machine

def fields : List (RecordField Machine) :=
  [⟨assembly, codec_string.optional "assembly"⟩,
    ⟨constructorCode, Bytecode.codec.optional "bytecode"⟩,
    ⟨deployedCode, Bytecode.codec.optional "deployedBytecode"⟩,
    ⟨methodIdentifiers, codec_string.map.optional "methodIdentifiers"⟩]

theorem read_object_iff {ms : Fields} {m : Machine} :
    Machine.read (.object ms) = some m ↔ fields.Forall fun f => f.read ms = some (f.get m) := by
  cases m
  simp [Machine.read, record, Option.bind_eq_some_iff, fields]

theorem codec : Codec Machine.read Machine.read Machine.json 0 :=
  .ofFields fields (fun _ => rfl) rfl (fun _ _ => read_object_iff.1) (fun _ _ => read_object_iff)
    (fun _ => by simp [Machine.json, membersOf, fields]) (by decide) (by decide)

end Machine

namespace CompiledContract

/-- An interface that is missing is written as an empty list. -/
def fields : List (RecordField CompiledContract) :=
  [⟨interface, InterfaceEntry.codec.list.defaulted "abi" readable_nil⟩,
    ⟨storageLayout, codec_any.optional "storageLayout"⟩,
    ⟨machine, Machine.codec.optional "evm"⟩]

theorem read_object_iff {ms : Fields} {c : CompiledContract} :
    CompiledContract.read (.object ms) = some c ↔
      fields.Forall fun f => f.read ms = some (f.get c) := by
  cases c
  simp [CompiledContract.read, record, Option.bind_eq_some_iff, fields]

theorem codec : Codec CompiledContract.read CompiledContract.read CompiledContract.json 4 :=
  .ofFields fields (fun _ => rfl) rfl (fun _ _ => read_object_iff.1) (fun _ _ => read_object_iff)
    (fun _ => by simp [CompiledContract.json, membersOf, fields]) (by decide) (by decide)

end CompiledContract

namespace CompiledSource

theorem readable_zero : ∃ w, Written.asWord? w = some 0 ∧ w.Within 0 :=
  ⟨.number (.int 0), rfl, .number (by constructor <;> decide)⟩

def fields : List (RecordField CompiledSource) :=
  [⟨id, codec_word.defaulted "id" readable_zero⟩, ⟨tree, codec_any.optional "ast"⟩]

theorem read_object_iff {ms : Fields} {s : CompiledSource} :
    CompiledSource.read (.object ms) = some s ↔
      fields.Forall fun f => f.read ms = some (f.get s) := by
  cases s
  simp [CompiledSource.read, record, Option.bind_eq_some_iff, fields]

theorem codec : Codec CompiledSource.read CompiledSource.read CompiledSource.json 0 :=
  .ofFields fields (fun _ => rfl) rfl (fun _ _ => read_object_iff.1) (fun _ _ => read_object_iff)
    (fun _ => by simp [CompiledSource.json, membersOf, fields]) (by decide) (by decide)

end CompiledSource

namespace Diagnostic

def fields : List (RecordField Diagnostic) :=
  [⟨component, codec_string.defaulted "component" readable_empty⟩,
    ⟨errorCode, codec_string.optional "errorCode"⟩,
    ⟨formattedMessage, codec_string.defaulted "formattedMessage" readable_empty⟩,
    ⟨message, codec_string.defaulted "message" readable_empty⟩,
    ⟨severity, codec_string.required "severity"⟩,
    ⟨kind, codec_string.defaulted "type" readable_empty⟩]

theorem read_object_iff {ms : Fields} {d : Diagnostic} :
    Diagnostic.read (.object ms) = some d ↔ fields.Forall fun f => f.read ms = some (f.get d) := by
  cases d
  simp [Diagnostic.read, record, Option.bind_eq_some_iff, fields]

theorem codec : Codec Diagnostic.read Diagnostic.read Diagnostic.json 0 :=
  .ofFields fields (fun _ => rfl) rfl (fun _ _ => read_object_iff.1) (fun _ _ => read_object_iff)
    (fun _ => by simp [Diagnostic.json, membersOf, fields]) (by decide) (by decide)

end Diagnostic

namespace CompilerOutput

def fields : List (RecordField CompilerOutput) :=
  [⟨contracts, CompiledContract.codec.map.map.optional "contracts"⟩,
    ⟨sources, CompiledSource.codec.map.optional "sources"⟩,
    ⟨errors, Diagnostic.codec.list.optional "errors"⟩]

theorem read_object_iff {ms : Fields} {o : CompilerOutput} :
    CompilerOutput.read (.object ms) = some o ↔
      fields.Forall fun f => f.read ms = some (f.get o) := by
  cases o
  simp [CompilerOutput.read, record, Option.bind_eq_some_iff, fields]

theorem codec : Codec CompilerOutput.read CompilerOutput.read CompilerOutput.json 7 :=
  .ofFields fields (fun _ => rfl) rfl (fun _ _ => read_object_iff.1) (fun _ _ => read_object_iff)
    (fun _ => by simp [CompilerOutput.json, membersOf, fields]) (by decide) (by decide)

end CompilerOutput

end ContractModel
