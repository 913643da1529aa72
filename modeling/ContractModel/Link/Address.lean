import ContractModel.Error
import ContractModel.SortedMap
import ContractModel.Text.Blank

/-! # Addresses of contracts

Addresses are chosen in ascending order and never again. The book holds the addresses of the
contracts of one compilation; a contract's address may be set by the user.
-/

namespace ContractModel

namespace Address

/-- The first address: a tag in the high bits. -/
def base : Nat := 0xce4604a <<< 100

def ofIndex (index : Nat) : Nat := base + index

/-- An address has at least forty digits. -/
def text (address : Nat) : String := Text.hexadecimalPadded 40 address

/-- A number in decimal, or behind `0x`, `0o` or `0b`; underscores and blanks around do not
count. -/
def parse (s : String) : Option Nat :=
  match (Text.trim s).toList.filter (· ≠ '_') with
  | '0' :: 'x' :: cs | '0' :: 'X' :: cs => Text.readUnbounded 16 (String.ofList cs)
  | '0' :: 'o' :: cs | '0' :: 'O' :: cs => Text.readUnbounded 8 (String.ofList cs)
  | '0' :: 'b' :: cs | '0' :: 'B' :: cs => Text.readUnbounded 2 (String.ofList cs)
  | cs => Text.readUnbounded 10 (String.ofList cs)

end Address

/-- The contracts with an address, in the order of assignment, and the index of the next address. -/
structure AddressBook where
  entries : List (Nat × String)
  nextIndex : Nat
  deriving DecidableEq, Repr

namespace AddressBook

def empty : AddressBook := ⟨[], 0⟩

/-- What a contract is entered under. -/
def entryKey (file contract : String) : String := file ++ ":" ++ contract

def lookup? (b : AddressBook) (file contract : String) : Option Nat :=
  (b.entries.find? fun e => e.2 = entryKey file contract).map Prod.fst

/-- Takes the next address. -/
def next (b : AddressBook) : Nat × AddressBook :=
  (Address.ofIndex b.nextIndex, { b with nextIndex := b.nextIndex + 1 })

/-- Enters a contract under the next address, unless it has an entry. -/
def assign (b : AddressBook) (file contract : String) : AddressBook :=
  if (b.lookup? file contract).isSome then b
  else ⟨b.entries ++ [(Address.ofIndex b.nextIndex, entryKey file contract)], b.nextIndex + 1⟩

/-- Forgets the contracts but not which addresses were used. -/
def clear (b : AddressBook) : AddressBook := { b with entries := [] }

/-- The address of a contract that was entered, or the one the user sets for its name. -/
def find (b : AddressBook) (overrides : SortedMap String String) (file contract : String) :
    Except InputFault String :=
  match b.lookup? file contract with
  | none => .error (.noAddress contract file (b.entries.map Prod.snd))
  | some address =>
    match overrides.get? contract with
    | none => .ok (Address.text address)
    | some value =>
      match Address.parse value with
      | some address => .ok (Address.text address)
      | none => .error (.addressValue value contract)

end AddressBook

end ContractModel
