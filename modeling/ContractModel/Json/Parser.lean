import ContractModel.Json.Binary64
import ContractModel.Json.Written

/-! # Reading JSON

A value may be surrounded by blanks. Strings hold no raw control character; a lone surrogate, a
number out of range and nesting beyond the limit are well formed but have no value. An integer that
fits no 64-bit type is read as a binary64 number.
-/

namespace ContractModel.Json

def isSpace (c : Char) : Bool := c = ' ' || c = '\n' || c = '\t' || c = '\r'

def skipSpace (cs : List Char) : List Char := cs.dropWhile isSpace

namespace Parser

/-- The code unit of four hexadecimal digits. -/
def codeUnit (a b c d : Char) : Option Nat := Text.readNumeral 16 [a, b, c, d]

/-- The character of an escape other than a code unit. -/
def simpleEscape : Char → Option Char
  | '"' => some '"'
  | '\\' => some '\\'
  | '/' => some '/'
  | 'b' => some '\x08'
  | 'f' => some '\x0c'
  | 'n' => some '\n'
  | 'r' => some '\r'
  | 't' => some '\t'
  | _ => none

/-- What was read of a string: its characters in reverse, if it has a value, and the first half of a
surrogate pair that the second has to follow. -/
structure StringReading where
  read : Option (List Char)
  waiting : Option Nat

namespace StringReading

def start : StringReading := ⟨some [], none⟩

def addChar (r : StringReading) (c : Char) : StringReading :=
  ⟨if r.waiting.isNone then r.read.map (c :: ·) else none, none⟩

/-- Adds an escaped code unit. -/
def addUnit (r : StringReading) (n : Nat) : StringReading :=
  match r.waiting with
  | some high =>
    if 0xdc00 ≤ n ∧ n < 0xe000 then
      let point := 0x10000 + (high - 0xd800) * 0x400 + (n - 0xdc00)
      ⟨r.read.map (Char.ofNat point :: ·), none⟩
    else ⟨none, none⟩
  | none =>
    if 0xd800 ≤ n ∧ n < 0xdc00 then ⟨r.read, some n⟩
    else if 0xdc00 ≤ n ∧ n < 0xe000 then ⟨none, none⟩
    else r.addChar (Char.ofNat n)

def text? (r : StringReading) : Option String :=
  if r.waiting.isNone then r.read.map fun cs => String.ofList cs.reverse else none

end StringReading

/-- The rest of a string literal behind its opening quote, and the text behind it. -/
def stringRest (r : StringReading) : List Char → Option (Option String × List Char)
  | [] => none
  | '"' :: cs => some (r.text?, cs)
  | '\\' :: 'u' :: a :: b :: c :: d :: cs =>
    match codeUnit a b c d with
    | none => none
    | some n => stringRest (r.addUnit n) cs
  | '\\' :: c :: cs =>
    match simpleEscape c with
    | none => none
    | some c => stringRest (r.addChar c) cs
  | c :: cs => if c.toNat < 32 then none else stringRest (r.addChar c) cs

/-- The digits at the front, as values, and the rest. -/
def digitRun (cs : List Char) : List Nat × List Char :=
  ((cs.takeWhile Char.isDigit).map fun c => c.toNat - 48, cs.dropWhile Char.isDigit)

/-- A significand that fits a word, and the number of digits it could not take. Digits of a fraction
end with the first that does not fit; digits in front of the point go on being counted. -/
def takeDigits (significand : Nat) : List Nat → Nat × Nat
  | [] => (significand, 0)
  | d :: ds =>
    if significand * 10 + d ≤ Text.maxWord then takeDigits (significand * 10 + d) ds
    else (significand, ds.length + 1)

/-- The exponent behind its letter: whether it is negative, and its digits. -/
def exponentPart (cs : List Char) : Option (Bool × List Nat × List Char) :=
  let (negative, cs) := match cs with
    | '-' :: cs => (true, cs)
    | '+' :: cs => (false, cs)
    | cs => (false, cs)
  match digitRun cs with
  | ([], _) => none
  | (ds, rest) => some (negative, ds, rest)

/-- A number with the given parts. -/
def float (negative : Bool) (whole fraction : List Nat) (exponent : Option (Bool × List Nat)) :
    Written :=
  let (s, skipped) := takeDigits 0 whole
  let (s', untaken) := takeDigits s fraction
  let base : Int := skipped - (fraction.length - untaken : Nat)
  let magnitude :=
    match exponent with
    | none => Binary64.scaled s' base
    | some (down, ds) =>
      let e : Nat := ds.foldl (fun n d => n * 10 + d) 0
      if e ≤ 0x7fffffff then Binary64.scaled s' (if down then base - e else base + e)
      else if s' ≠ 0 ∧ ¬ down then none
      else some 0
  match magnitude with
  | none => .unreadable
  | some f => .number (.float (if negative then -f else f).toBits)

def number (cs : List Char) : Option (Written × List Char) := do
  let (negative, cs) := match cs with
    | '-' :: cs => (true, cs)
    | cs => (false, cs)
  let (whole, cs) := digitRun cs
  if whole.isEmpty || (whole.head? == some 0 && whole.length != 1) then none
  let (fraction, cs) ← match cs with
    | '.' :: cs =>
      match digitRun cs with
      | ([], _) => none
      | (ds, rest) => some (some ds, rest)
    | cs => some (none, cs)
  let (exponent, cs) ← match cs with
    | 'e' :: cs | 'E' :: cs => (exponentPart cs).map fun (down, ds, rest) => (some (down, ds), rest)
    | cs => some (none, cs)
  let n := whole.foldl (fun n d => n * 10 + d) 0
  if fraction.isNone && exponent.isNone then
    if ¬ negative ∧ n ≤ Text.maxWord then return (.number (.int n), cs)
    if negative ∧ n ≠ 0 ∧ n ≤ Text.maxInt + 1 then return (.number (.int (-n)), cs)
  return (float negative whole (fraction.getD []) exponent, cs)

def word (w : String) (value : Written) (cs : List Char) : Option (Written × List Char) :=
  (List.isPrefixOf? w.toList cs).map fun rest => (value, rest)

/-- How deeply arrays and objects with a value may be nested. -/
def maxDepth : Nat := 127

/-- An array or object at a depth. -/
def nested (depth : Nat) (w : Written) : Written := if depth ≤ maxDepth then w else .unreadable

mutual

/-- A value at the front, behind blanks, and the text behind it; arrays and objects in it are at the
given depth. -/
def value (depth : Nat) : Nat → List Char → Option (Written × List Char)
  | 0, _ => none
  | fuel + 1, cs =>
    match skipSpace cs with
    | [] => none
    | 'n' :: rest => word "ull" .null rest
    | 't' :: rest => word "rue" (.bool true) rest
    | 'f' :: rest => word "alse" (.bool false) rest
    | '"' :: rest =>
      (stringRest .start rest).map fun (s?, rest) => (s?.elim .unreadable .string, rest)
    | '[' :: rest =>
      match skipSpace rest with
      | ']' :: rest => some (nested depth (.array []), rest)
      | rest => (items (depth + 1) fuel rest).map fun (ws, rest) => (nested depth (.array ws), rest)
    | '\x7b' :: rest =>
      match skipSpace rest with
      | '\x7d' :: rest => some (nested depth (.object []), rest)
      | rest =>
        (members (depth + 1) fuel rest).map fun (ms, rest) => (nested depth (.ofMembers ms), rest)
    | cs => number cs

/-- At least one item, and the end of the array. -/
def items (depth : Nat) : Nat → List Char → Option (List Written × List Char)
  | 0, _ => none
  | fuel + 1, cs =>
    (value depth fuel cs).bind fun (w, rest) =>
      match skipSpace rest with
      | ',' :: rest => (items depth fuel rest).map fun (ws, rest) => (w :: ws, rest)
      | ']' :: rest => some ([w], rest)
      | _ => none

/-- At least one member, and the end of the object. -/
def members (depth : Nat) : Nat → List Char → Option (List (Option String × Written) × List Char)
  | 0, _ => none
  | fuel + 1, cs =>
    match skipSpace cs with
    | '"' :: rest =>
      (stringRest .start rest).bind fun (name, rest) =>
        match skipSpace rest with
        | ':' :: rest =>
          (value depth fuel rest).bind fun (w, rest) =>
            match skipSpace rest with
            | ',' :: rest => (members depth fuel rest).map fun (ms, rest) => ((name, w) :: ms, rest)
            | '\x7d' :: rest => some ([(name, w)], rest)
            | _ => none
        | _ => none
    | _ => none

end

end Parser

/-- Reads a text that holds one value; repeated member names stay. -/
def Written.parse (s : String) : Option Written :=
  let cs := s.toList
  match Parser.value 1 (2 * cs.length + 2) cs with
  | some (w, rest) => if (skipSpace rest).isEmpty then some w else none
  | none => none

/-- The value that a text is. -/
def parse (s : String) : Option Json := (Written.parse s).bind Written.value?

end ContractModel.Json
