/-! # Finding and replacing

Splitting a text at the first occurrence of another, at every occurrence of a character, and
replacing every occurrence. Occurrences are found from the left and do not overlap.
-/

namespace ContractModel.Text

/-- The text in front of the first occurrence and the text behind it. -/
def splitFirst (pattern : List Char) : List Char → Option (List Char × List Char)
  | [] => if pattern.isEmpty then some ([], []) else none
  | c :: cs =>
    match List.isPrefixOf? pattern (c :: cs) with
    | some rest => some ([], rest)
    | none => (splitFirst pattern cs).map fun (front, rest) => (c :: front, rest)

/-- The parts between occurrences of a character, at least one. -/
def splitOnChar (separator : Char) : List Char → List (List Char)
  | [] => [[]]
  | c :: cs =>
    if c = separator then [] :: splitOnChar separator cs
    else
      match splitOnChar separator cs with
      | [] => [[c]]
      | part :: parts => (c :: part) :: parts

/-- Replaces occurrences from the left; the number bounds how many characters may still be skipped
as part of the occurrence just replaced. -/
def replaceFrom (pattern replacement : List Char) : Nat → List Char → List Char
  | _, [] => []
  | skip + 1, _ :: cs => replaceFrom pattern replacement skip cs
  | 0, c :: cs =>
    if pattern.isPrefixOf (c :: cs) then
      replacement ++ replaceFrom pattern replacement (pattern.length - 1) cs
    else c :: replaceFrom pattern replacement 0 cs

/-- Replaces every occurrence of a text that is not empty. -/
def replaceAll (pattern replacement s : String) : String :=
  String.ofList (replaceFrom pattern.toList replacement.toList 0 s.toList)

def contains (pattern s : String) : Bool := (splitFirst pattern.toList s.toList).isSome

/-- The parts of a text around the first occurrence. -/
def splitOnce (pattern s : String) : Option (String × String) :=
  (splitFirst pattern.toList s.toList).map fun (front, rest) =>
    (String.ofList front, String.ofList rest)

/-- The parts of a text around the last occurrence of a character. -/
def splitLast (separator : Char) (s : String) : Option (String × String) :=
  let back := s.toList.reverse
  match back.dropWhile (· ≠ separator) with
  | [] => none
  | _ :: front =>
    some (String.ofList front.reverse, String.ofList (back.takeWhile (· ≠ separator)).reverse)

def splitChar (separator : Char) (s : String) : List String :=
  (splitOnChar separator s.toList).map String.ofList

/-- The text without a prefix, if it has it. -/
def afterPrefix? (start s : String) : Option String :=
  (List.isPrefixOf? start.toList s.toList).map String.ofList

theorem afterPrefix?_append (start s : String) : afterPrefix? start (start ++ s) = some s := by
  have hlist (cs ds : List Char) : List.isPrefixOf? cs (cs ++ ds) = some ds := by
    induction cs with
    | nil => rfl
    | cons c cs ih => exact (if_pos (beq_self_eq_true c)).trans ih
  rw [afterPrefix?, String.toList_append, hlist, Option.map_some, String.ofList_toList]

def hasPrefix (start s : String) : Bool := start.toList.isPrefixOf s.toList

theorem hasPrefix_iff {start s : String} : hasPrefix start s ↔ start.toList <+: s.toList :=
  List.isPrefixOf_iff_prefix

/-- The text without an ending, if it has it. -/
def beforeSuffix? (ending s : String) : Option String :=
  (List.isSuffixOf? ending.toList s.toList).map String.ofList

def dropCarriageReturn (line : List Char) : List Char :=
  if line.getLast? = some '\r' then line.dropLast else line

/-- The lines without their ends, a line feed that a carriage return may precede; behind the last
line feed only a text that is not empty counts as a line. -/
def lines (s : String) : List String :=
  let parts := splitOnChar '\n' s.toList
  let last := parts.getLast?.getD []
  let ended := parts.dropLast.map dropCarriageReturn
  (if last.isEmpty then ended else ended ++ [last]).map String.ofList

end ContractModel.Text
