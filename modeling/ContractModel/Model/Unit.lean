import ContractModel.Model.Contract
import ContractModel.Toolchain

/-! # Units of the build model

A unit is a primary contract with the contracts compiled together with it, and what links have set
in its storage. A library can be split out of a unit into one of its own.
-/

namespace ContractModel

structure BuildUnit where
  primaryContract : String
  address : String
  originFile : String
  /-- The sources by identifier. -/
  sources : SortedMap Nat String
  /-- The copies of the sources in the report. -/
  reportSources : SortedMap Nat String
  name : String
  contracts : List ContractRecord
  libraryAddresses : List String
  generatedWith : String
  /-- What links have set, by slot. -/
  state : SortedMap String String
  structLinks : SortedMap String String
  legacyStructLinks : SortedMap String String
  prototypes : List String
  toolchain : Toolchain
  deriving Inhabited

namespace BuildUnit

def contract? (u : BuildUnit) (name : String) : Option ContractRecord :=
  u.contracts.find? fun c => c.name == name

/-- The unit of one of the contracts alone, without what was set in the other. -/
def splitLibrary (u : BuildUnit) (library : ContractRecord) : BuildUnit where
  primaryContract := library.name
  address := library.address
  originFile := library.file
  sources := u.sources
  reportSources := u.reportSources
  name := u.name ++ "_" ++ library.name
  contracts := [library]
  libraryAddresses := []
  generatedWith := u.generatedWith
  state := ∅
  structLinks := ∅
  legacyStructLinks := ∅
  prototypes := []
  toolchain := u.toolchain

def sourcesJson (m : SortedMap Nat String) : Json :=
  .object (m.entries.map fun e => (Text.decimal e.1, .string e.2))

def json (u : BuildUnit) : Json :=
  .object [("primary_contract", .string u.primaryContract),
    ("primary_contract_address", .string u.address), ("sdc_origin_file", .string u.originFile),
    ("original_srclist", sourcesJson u.sources),
    ("srclist", sourcesJson u.reportSources), ("sdc_name", .string u.name),
    ("contracts", .array (u.contracts.map ContractRecord.json)),
    ("library_addresses", Json.ofStrings u.libraryAddresses),
    ("generated_with", .string u.generatedWith), ("state", Json.ofMap .string u.state),
    ("structLinkingInfo", Json.ofMap .string u.structLinks),
    ("legacyStructLinking", Json.ofMap .string u.legacyStructLinks),
    ("prototypeFor", Json.ofStrings u.prototypes)]

end BuildUnit

/-- The units of a build, by primary contract and address. -/
abbrev BuildModel := SortedMap String BuildUnit

namespace BuildModel

def key (contract address : String) : String := contract ++ "_" ++ address

def add (m : BuildModel) (u : BuildUnit) : BuildModel :=
  m.insert (key u.primaryContract u.address) u

/-- The keys of the units with the primary contract, in order. -/
def keysOf (m : BuildModel) (contract : String) : List String :=
  (m.filter fun _ u => u.primaryContract == contract).keys

/-- The address of the first unit with the primary contract. -/
def addressOf? (m : BuildModel) (contract : String) : Option String :=
  (m.filter fun _ u => u.primaryContract == contract).values.head?.map BuildUnit.address

def json (m : BuildModel) : Json := Json.ofMap BuildUnit.json m

end BuildModel

end ContractModel
