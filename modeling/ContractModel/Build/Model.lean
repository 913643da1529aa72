import ContractModel.Build.Finders

/-! # Adding units to the model

A unit is added with its primary contract only; the libraries linked into it become units of their
own. The primary contract lists the methods of all contracts of the unit.
-/

namespace ContractModel

namespace BuildUnit

/-- The unit with finders for all of its contracts. -/
def withFinders (u : BuildUnit) (finders : SortedMap String ContractFunction) : BuildUnit :=
  let values := finders.mapValues fun _ f => f.json
  { u with contracts := u.contracts.map fun c => { c with finders := c.finders.union values } }

/-- The methods of all contracts of a unit. -/
def methods (u : BuildUnit) : List ContractFunction := u.contracts.flatMap ContractRecord.methods

/-- Adds a function unless one of the others is the same internally. -/
def addMethod (unique : List ContractFunction) (f : ContractFunction) : List ContractFunction :=
  if unique.any fun g => g.sameInternally f then unique else unique ++ [f]

/-- The first of the functions that are the same internally, in order. -/
def uniqueMethods (fs : List ContractFunction) : List ContractFunction :=
  ContractFunction.sort (fs.foldl addMethod [])

/-- The contract of a unit at a library's address. -/
def library (u : BuildUnit) (address : String) : Except Error ContractRecord :=
  match u.contracts.filter fun c => c.address == address with
  | [c] => .ok c
  | cs => .error (.inconsistency (.libraryCount address u.name cs.length))

/-- The unit with nothing but its primary contract, which lists all methods. -/
def primary (u : BuildUnit) : Except Error BuildUnit :=
  match u.contracts.filter fun c => c.name == u.primaryContract with
  | [c] => .ok { u with contracts := [{ c with allMethods := uniqueMethods u.methods }] }
  | cs => .error (.inconsistency (.primaryCount u.primaryContract u.name cs.length))

end BuildUnit

namespace Build

/-- Adds the libraries of a unit as units of their own. -/
def addLibraries (u : BuildUnit) : Build Unit :=
  u.libraryAddresses.forM fun address => do
    let c ← ofExcept (u.library address)
    onModel fun m => m.add (u.splitLibrary c)

/-- Adds a unit and its libraries. -/
def addUnit (prototypes : List String) (found : FoundUnit) : Build Unit := do
  let u := { found.unit.withFinders found.finders with prototypes := prototypes }
  addLibraries u
  let u ← ofExcept u.primary
  onModel fun m => m.add u

end Build

end ContractModel
