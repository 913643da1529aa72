/-! # Splitting a command line into words

Words are separated by blanks, tabs and line feeds. Single quotes keep everything, double quotes
keep all but escapes, a backslash keeps the next character, and `#` at the start of a word begins a
comment. A quote that is never closed is the only failure.
-/

namespace ContractModel.Text.Words

def isSeparator (c : Char) : Bool := c = ' ' || c = '\t' || c = '\n'

/-- Where the reader stands. A word that has begun holds its characters in reverse. -/
inductive State where
  | between
  | comment
  | escapedStart
  | bare (word : List Char)
  | escaped (word : List Char)
  | single (word : List Char)
  | double (word : List Char)
  | doubleEscaped (word : List Char)
  deriving DecidableEq, Repr

/-- The state behind a character that belongs to a word. -/
def begin (word : List Char) (c : Char) : State :=
  if c = '\x27' then .single word
  else if c = '"' then .double word
  else if c = '\\' then .escaped word
  else .bare (c :: word)

/-- The state behind a character, and the word that the character ends. -/
def step : State → Char → State × Option (List Char)
  | .between, c =>
    if isSeparator c then (.between, none)
    else if c = '#' then (.comment, none)
    else if c = '\\' then (.escapedStart, none)
    else (begin [] c, none)
  | .comment, c => (if c = '\n' then .between else .comment, none)
  | .escapedStart, c => (if c = '\n' then .between else .bare [c], none)
  | .bare word, c =>
    if isSeparator c then (.between, some word) else (begin word c, none)
  | .escaped word, c => (.bare (if c = '\n' then word else c :: word), none)
  | .single word, c => (if c = '\x27' then .bare word else .single (c :: word), none)
  | .double word, c =>
    (if c = '"' then .bare word
      else if c = '\\' then .doubleEscaped word
      else .double (c :: word), none)
  | .doubleEscaped word, c =>
    (.double (if c = '\n' then word
      else if c = '$' || c = '\x60' || c = '"' || c = '\\' then c :: word
      else c :: '\\' :: word), none)

/-- The words completed at the end of the text. -/
def finish : State → Option (List (List Char))
  | .between | .comment => some []
  | .bare word => some [word]
  | .escapedStart => some [['\\']]
  | .escaped word => some ['\\' :: word]
  | .single _ | .double _ | .doubleEscaped _ => none

def scan : State → List Char → Option (List (List Char))
  | st, [] => finish st
  | st, c :: cs =>
    let (st', word?) := step st c
    (scan st' cs).map fun words => word?.toList ++ words

/-- The words of a text, or `none` for a quote that is not closed. -/
def split (s : String) : Option (List String) :=
  (scan .between s.toList).map fun words => words.map fun w => String.ofList w.reverse

/-- The message for a quote that is not closed. -/
def unclosedMessage : String := "missing closing quote"

end ContractModel.Text.Words
