/-! # Bounded caches

A cache keeps its entries in an order and drops the first one to make room for a new key. Reading
moves an entry to the end; writing over a key that is present leaves it in its place.
-/

namespace ContractModel

structure RecentCache (κ α : Type) where
  capacity : Nat
  entries : List (κ × α)
  deriving Repr

namespace RecentCache

variable {κ α : Type}

def empty (capacity : Nat) : RecentCache κ α := ⟨capacity, []⟩

def size (c : RecentCache κ α) : Nat := c.entries.length
def isEmpty (c : RecentCache κ α) : Bool := c.entries.isEmpty

variable [DecidableEq κ]

def peek? (c : RecentCache κ α) (k : κ) : Option α :=
  (c.entries.find? fun e => e.1 = k).map Prod.snd

/-- The value of a key, and the cache with its entry at the end. -/
def get? (c : RecentCache κ α) (k : κ) : Option α × RecentCache κ α :=
  match c.peek? k with
  | none => (none, c)
  | some v => (some v, ⟨c.capacity, c.entries.filter (fun e => e.1 ≠ k) ++ [(k, v)]⟩)

/-- A cache without room keeps nothing. -/
def insert (c : RecentCache κ α) (k : κ) (v : α) : RecentCache κ α :=
  if c.capacity = 0 then c
  else if (c.peek? k).isSome then
    ⟨c.capacity, c.entries.map fun e => if e.1 = k then (k, v) else e⟩
  else
    let kept := if c.capacity ≤ c.entries.length then c.entries.drop 1 else c.entries
    ⟨c.capacity, kept ++ [(k, v)]⟩

end RecentCache

end ContractModel
