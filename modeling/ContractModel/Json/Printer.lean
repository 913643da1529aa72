import ContractModel.Json.Binary64

/-! # Printing JSON

The compact text has no blanks; the indented text puts one element or member on a line, two spaces
deeper, and keeps empty arrays and objects inline.
-/

namespace ContractModel.Json

/-- Escapes the quote, the backslash and the control characters below the space. -/
def escapeChar (c : Char) : List Char :=
  match c with
  | '"' => ['\\', '"']
  | '\\' => ['\\', '\\']
  | '\n' => ['\\', 'n']
  | '\r' => ['\\', 'r']
  | '\t' => ['\\', 't']
  | '\x08' => ['\\', 'b']
  | '\x0c' => ['\\', 'f']
  | c => if c.toNat < 32 then '\\' :: 'u' :: Text.padded 4 16 c.toNat else [c]

def quoted (s : String) : List Char :=
  '"' :: s.toList.flatMap escapeChar ++ ['"']

/-- A number that is not finite has the text of `null`. -/
def Number.chars : Number → List Char
  | .int n => (Text.signedDecimal n).toList
  | .float bits => ((Binary64.text bits).getD "null").toList

mutual

def compactChars : Json → List Char
  | .null => "null".toList
  | .bool true => "true".toList
  | .bool false => "false".toList
  | .number n => n.chars
  | .string s => quoted s
  | .array [] => ['[', ']']
  | .array (j :: js) => '[' :: compactChars j ++ compactItems js
  | .object [] => ['\x7b', '\x7d']
  | .object ((name, j) :: ms) =>
    '\x7b' :: quoted name ++ ':' :: compactChars j ++ compactMembers ms

/-- The items behind the first, and the end of the array. -/
def compactItems : List Json → List Char
  | [] => [']']
  | j :: js => ',' :: compactChars j ++ compactItems js

/-- The members behind the first, and the end of the object. -/
def compactMembers : List (String × Json) → List Char
  | [] => ['\x7d']
  | (name, j) :: ms => ',' :: quoted name ++ ':' :: compactChars j ++ compactMembers ms

end

/-- A line break and the indentation of a depth. -/
def lineBreak (depth : Nat) : List Char := '\n' :: List.replicate (2 * depth) ' '

mutual

def indentedChars (depth : Nat) : Json → List Char
  | .array (j :: js) =>
    '[' :: lineBreak (depth + 1) ++ indentedChars (depth + 1) j ++ indentedItems depth js
  | .object ((name, j) :: ms) =>
    '\x7b' :: lineBreak (depth + 1) ++ quoted name ++ ':' :: ' ' :: indentedChars (depth + 1) j ++
      indentedMembers depth ms
  | j => compactChars j

def indentedItems (depth : Nat) : List Json → List Char
  | [] => lineBreak depth ++ [']']
  | j :: js =>
    ',' :: lineBreak (depth + 1) ++ indentedChars (depth + 1) j ++ indentedItems depth js

def indentedMembers (depth : Nat) : List (String × Json) → List Char
  | [] => lineBreak depth ++ ['\x7d']
  | (name, j) :: ms =>
    ',' :: lineBreak (depth + 1) ++ quoted name ++ ':' :: ' ' :: indentedChars (depth + 1) j ++
      indentedMembers depth ms

end

def compact (j : Json) : String := String.ofList (compactChars j)

def indented (j : Json) : String := String.ofList (indentedChars 0 j)

end ContractModel.Json
