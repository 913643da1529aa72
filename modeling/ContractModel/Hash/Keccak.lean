/-! # Keccak-256

The sponge with the permutation on 25 lanes of 64 bits, a rate of 136 bytes, a capacity of 512 bits
and the padding that starts with the byte 1.
-/

namespace ContractModel.Keccak

abbrev Lanes := Vector UInt64 25

def rate : Nat := 136

def roundConstants : List UInt64 :=
  [0x0000000000000001, 0x0000000000008082, 0x800000000000808a, 0x8000000080008000,
   0x000000000000808b, 0x0000000080000001, 0x8000000080008081, 0x8000000000008009,
   0x000000000000008a, 0x0000000000000088, 0x0000000080008009, 0x000000008000000a,
   0x000000008000808b, 0x800000000000008b, 0x8000000000008089, 0x8000000000008003,
   0x8000000000008002, 0x8000000000000080, 0x000000000000800a, 0x800000008000000a,
   0x8000000080008081, 0x8000000000008080, 0x0000000080000001, 0x8000000080008008]

/-- The rotation of the lane in column `x` and row `y` is at index `x + 5 * y`. -/
def rotations : Vector UInt64 25 :=
  #v[0, 1, 62, 28, 27, 36, 44, 6, 55, 20, 3, 10, 43, 25, 39, 41, 45, 15, 21, 8, 18, 2, 61, 56, 14]

def rotateLeft (w n : UInt64) : UInt64 :=
  if n = 0 then w else (w <<< n) ||| (w >>> (64 - n))

/-- The lane in column `x` and row `y`, both modulo five. -/
def lane (s : Lanes) (x y : Nat) : UInt64 :=
  s.get ⟨x % 5 + 5 * (y % 5), by omega⟩

def ofLanes (f : Nat → Nat → UInt64) : Lanes :=
  Vector.ofFn fun i => f (i.val % 5) (i.val / 5)

/-- Adds to each lane the parities of the columns beside it. -/
def theta (s : Lanes) : Lanes :=
  let parity : Vector UInt64 5 := Vector.ofFn fun x =>
    lane s x 0 ^^^ lane s x 1 ^^^ lane s x 2 ^^^ lane s x 3 ^^^ lane s x 4
  let column (x : Nat) : UInt64 := parity.get ⟨x % 5, by omega⟩
  ofLanes fun x y => lane s x y ^^^ column (x + 4) ^^^ rotateLeft (column (x + 1)) 1

/-- Rotates each lane and moves it to its new place. -/
def rhoPi (s : Lanes) : Lanes :=
  ofLanes fun x y => rotateLeft (lane s (x + 3 * y) x) (lane rotations (x + 3 * y) x)

/-- Combines each lane with the two lanes to its right. -/
def chi (s : Lanes) : Lanes :=
  ofLanes fun x y => lane s x y ^^^ (~~~ lane s (x + 1) y &&& lane s (x + 2) y)

def round (s : Lanes) (constant : UInt64) : Lanes :=
  let s := chi (rhoPi (theta s))
  s.set 0 (s[0] ^^^ constant)

def permute (s : Lanes) : Lanes := roundConstants.foldl round s

/-- The message with a one bit behind it and a one bit at the end of the last block. -/
def padMessage (message : List UInt8) : List UInt8 :=
  let zeros := rate - 1 - message.length % rate
  if zeros = 0 then message ++ [0x81]
  else message ++ 0x01 :: List.replicate (zeros - 1) 0 ++ [0x80]

/-- Eight bytes from the least significant. -/
def word (bytes : List UInt8) : UInt64 :=
  bytes.foldr (fun b w => (w <<< 8) ||| b.toUInt64) 0

/-- Adds a block to the first lanes. -/
def absorbBlock (s : Lanes) (block : Array UInt8) : Lanes :=
  Vector.ofFn fun i =>
    s[i] ^^^ word ((block.extract (8 * i.val) (8 * i.val + 8)).toList)

def blocks (bytes : List UInt8) : List (Array UInt8) :=
  (List.range (bytes.length / rate)).map fun i => ((bytes.drop (i * rate)).take rate).toArray

/-- The 32 bytes of the digest. -/
def digest (message : List UInt8) : List UInt8 :=
  let s := (blocks (padMessage message)).foldl (fun s b => permute (absorbBlock s b))
    (Vector.replicate 25 0)
  (List.range 32).map fun i =>
    ((s.toList.getD (i / 8) 0 >>> (8 * (i % 8)).toUInt64) &&& 0xff).toUInt8

end ContractModel.Keccak
