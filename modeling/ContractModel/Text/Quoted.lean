import ContractModel.Text.Escaped
import ContractModel.Text.Number

/-! # Quoted text in messages

Texts, characters and lists as error messages show them: between quotes, with backslash escapes,
and with code points in braces for characters that have no shape of their own.
-/

namespace ContractModel.Text

/-- The escaped form of a character between the given quotes; other quotes stand for themselves. -/
def escape (quote : Char) (c : Char) : List Char :=
  match c with
  | '\x00' => ['\\', '0']
  | '\t' => ['\\', 't']
  | '\r' => ['\\', 'r']
  | '\n' => ['\\', 'n']
  | '\\' => ['\\', '\\']
  | c =>
    if c = quote then ['\\', c]
    else if c.toNat < 32 || c.toNat == 127 || (127 < c.toNat && isEscaped c) then
      ['\\', 'u', '\x7b'] ++ digits 16 c.toNat ++ ['\x7d']
    else [c]

def quotedString (s : String) : String :=
  String.ofList ('"' :: s.toList.flatMap (escape '"') ++ ['"'])

def quotedChar (c : Char) : String :=
  String.ofList ('\x27' :: escape '\x27' c ++ ['\x27'])

def quotedOption : Option Char → String
  | none => "None"
  | some c => "Some(" ++ quotedChar c ++ ")"

def quotedList (ss : List String) : String :=
  "[" ++ String.intercalate ", " (ss.map quotedString) ++ "]"

end ContractModel.Text
