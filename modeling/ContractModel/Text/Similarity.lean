import ContractModel.Sorting

/-! # Similarity of names

The Jaro–Winkler similarity on binary64 numbers: shared characters within a window, transpositions
among them, and a bonus for up to four equal first characters.
-/

namespace ContractModel.Text

/-- Takes the first of the free characters that equals the given one and has its position from
`low` up to, but not including, `high`: its position and the characters still free. The positions
ascend. -/
def takeFree (c : Char) (low high : Nat) : List (Char × Nat) → Option (Nat × List (Char × Nat))
  | [] => none
  | p :: free =>
    if high ≤ p.2 then none
    else if low ≤ p.2 && p.1 == c then some (p.2, free)
    else (takeFree c low high free).map fun (j, rest) => (j, p :: rest)

/-- The pairs of positions matched from the left, each character with the first free equal one that
is at most `range` places away. -/
def matchedFrom (range : Nat) : List (Char × Nat) → List (Char × Nat) → List (Nat × Nat)
  | [], _ => []
  | (c, i) :: rest, free =>
    match takeFree c (i - range) (i + range + 1) free with
    | none => matchedFrom range rest free
    | some (j, free) => (i, j) :: matchedFrom range rest free

/-- The matched positions of two texts, ascending in the first. -/
def matchedPairs (a b : List Char) (range : Nat) : List (Nat × Nat) :=
  matchedFrom range a.zipIdx b.zipIdx

/-- The matched characters that stand at different places in the two orders. -/
def transposed (a b : List Char) (pairs : List (Nat × Nat)) : Nat :=
  let left := pairs.filterMap fun p => a[p.1]?
  let right := (Sorting.sort (fun i j => i ≤ j) (pairs.map Prod.snd)).filterMap fun j => b[j]?
  (left.zip right).countP fun p => p.1 ≠ p.2

def jaro (a b : List Char) : Float :=
  if a.isEmpty && b.isEmpty then 1
  else if a.isEmpty || b.isEmpty then 0
  else
    let range := max a.length b.length / 2 - 1
    let pairs := matchedPairs a b range
    let m := pairs.length.toFloat
    if pairs.isEmpty then 0
    else
      let t := (transposed a b pairs / 2).toFloat
      (m / a.length.toFloat + m / b.length.toFloat + (m - t) / m) / 3

/-- Above a similarity of 0.7 there is a bonus of a tenth for each equal first character. -/
def jaroWinkler (a b : List Char) : Float :=
  let j := jaro a b
  if j > 0.7 then
    let shared := ((a.zip b).take 4).takeWhile fun p => p.1 == p.2
    j + 0.1 * shared.length.toFloat * (1 - j)
  else j

end ContractModel.Text
