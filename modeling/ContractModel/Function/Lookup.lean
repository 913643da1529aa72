import ContractModel.Error
import ContractModel.Function.Basic
import ContractModel.SortedMap
import ContractModel.Sorting
import ContractModel.Text.Search
import ContractModel.Text.Similarity

/-! # Looking up a method

A method is given by its signature, spaces left aside. If no public function has it, the failure
names the overloads or the functions with the most similar names.
-/

namespace ContractModel.Lookup

/-- Names below this similarity are not suggested. -/
def minSimilarity : Float := 0.8

def maxSuggestions : Nat := 3

/-- The most similar names first, equally similar ones in order. -/
def closestNames (name : String) (names : List String) : List String :=
  let scored := names.map fun n => (n, Text.jaroWinkler name.toList n.toList)
  let close := scored.filter fun s => s.2 ≥ minSimilarity
  let before (s t : String × Float) : Bool := s.2 > t.2 || (s.2 == t.2 && s.1 ≤ t.1)
  ((Sorting.sort before close).take maxSuggestions).map Prod.fst

/-- The text in front of the first parenthesis. -/
def nameOf (method : String) : String := String.ofList (method.toList.takeWhile (· ≠ '('))

def withoutSpaces (method : String) : String := String.ofList (method.toList.filter (· ≠ ' '))

/-- Succeeds if a public function has the signature. -/
def verifyMethod (method : String) (pub internal : List ContractFunction) :
    Except Error Unit := do
  let name := nameOf method
  let signature := withoutSpaces method
  let namesakes := pub.filter fun f => f.name == name
  if namesakes.any fun f => f.signature == signature then return
  match internal.find? fun f => f.name == name && f.signature == signature with
  | some f => throw (.input (.nonExternalMethod signature f.visibility.text))
  | none =>
    let overloads := (namesakes.map ContractFunction.signature).eraseDups
    let suggestions :=
      if overloads.isEmpty then
        let names := SortedMap.distinct (pub.map ContractFunction.name)
        ((closestNames name names).flatMap fun n =>
          (pub.filter fun f => f.name == n).map ContractFunction.signature).eraseDups
      else overloads
    throw (.input (.unknownMethod method suggestions))

end ContractModel.Lookup
