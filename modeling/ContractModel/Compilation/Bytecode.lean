import ContractModel.Json.Printer
import ContractModel.Json.Schema

/-! # Bytecode of a compilation

A bytecode in hexadecimal digits with the places of library addresses and immutables in it.
-/

namespace ContractModel

/-- A range of bytes. -/
structure ByteRange where
  start : Nat
  length : Nat
  deriving DecidableEq, Repr

namespace ByteRange

def read (w : Json.Written) : Option ByteRange := do
  let ms ← Json.Schema.record ["start", "length"] w
  return {
    start := ← Json.Schema.required "start" Json.Written.asWord? ms
    length := ← Json.Schema.required "length" Json.Written.asWord? ms }

def json (r : ByteRange) : Json :=
  .object [("start", .ofNat r.start), ("length", .ofNat r.length)]

end ByteRange

/-- The places of each library's address, by file and library. -/
abbrev LinkReferences := SortedMap String (SortedMap String (List ByteRange))

namespace LinkReferences

def read : Json.Written → Option LinkReferences :=
  Json.Schema.map (Json.Schema.map (Json.Schema.list ByteRange.read))

def json (rs : LinkReferences) : Json :=
  Json.ofMap (Json.ofMap fun ranges => .array (ranges.map ByteRange.json)) rs

end LinkReferences

structure Bytecode where
  object : String
  sourceMap : Option Json
  linkReferences : Option LinkReferences
  immutableReferences : Option (SortedMap String (List ByteRange))

namespace Bytecode

def empty : Bytecode := ⟨"", none, none, none⟩

/-- The source map as text: a text as it is, anything else as compact JSON. -/
def sourceMapText (b : Bytecode) : String :=
  match b.sourceMap with
  | none | some .null => ""
  | some (.string s) => s
  | some j => j.compact

def read (w : Json.Written) : Option Bytecode := do
  let ms ← Json.Schema.record ["object", "sourceMap", "linkReferences", "immutableReferences"] w
  return {
    object := ← Json.Schema.defaulted "object" Json.Written.asString? "" ms
    sourceMap := ← Json.Schema.optional "sourceMap" Json.Schema.any ms
    linkReferences := ← Json.Schema.optional "linkReferences" LinkReferences.read ms
    immutableReferences := ← Json.Schema.optional "immutableReferences"
      (Json.Schema.map (Json.Schema.list ByteRange.read)) ms }

def json (b : Bytecode) : Json :=
  .object ([("object", .string b.object)] ++ Json.member? "sourceMap" (fun j => j) b.sourceMap ++
    Json.member? "linkReferences" LinkReferences.json b.linkReferences ++
    Json.member? "immutableReferences"
      (Json.ofMap fun ranges => .array (ranges.map ByteRange.json)) b.immutableReferences)

end Bytecode

end ContractModel
