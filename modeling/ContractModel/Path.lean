import ContractModel.Text.Search

/-! # Paths

The normal form of a path and its last name. Normal paths are absolute and have no empty, `.` or
`..` components; the parent of the root is the root. Replacing the last name leaves the text in
front of it as it is.
-/

namespace ContractModel.Path

/-- The components of a path; empty ones and `.` stand for no step. -/
def components (path : List Char) : List (List Char) :=
  (Text.splitOnChar '/' path).filter fun c => c ≠ [] ∧ c ≠ ['.']

/-- Walks from a directory along components; `..` goes up and stays at the root. -/
def walk (start : List (List Char)) (steps : List (List Char)) : List (List Char) :=
  steps.foldl (fun here step => if step = ['.', '.'] then here.dropLast else here ++ [step]) start

/-- The text of an absolute path. -/
def join (cs : List (List Char)) : List Char :=
  if cs.isEmpty then ['/'] else cs.flatMap fun c => '/' :: c

def isAbsolute (path : String) : Bool := path.toList.head? = some '/'

/-- The components of the normal form, relative to a directory given by its components. -/
def resolve (current : List (List Char)) (path : String) : List (List Char) :=
  walk (if isAbsolute path then [] else current) (components path.toList)

/-- The normal form of a path, relative to the current directory. -/
def normalize (current path : String) : String :=
  String.ofList (join (resolve (walk [] (components current.toList)) path))

/-- Drops the segments at the end that stand for no step, down to the first segment. -/
def dropTrivial (segments : List (List Char)) : List (List Char) :=
  match segments with
  | [] => []
  | first :: rest =>
    first :: (rest.reverse.dropWhile fun s => s = [] || s = ['.']).reverse

/-- The text of segments; the root alone is a slash. -/
def joinSegments : List (List Char) → List Char
  | [[]] => ['/']
  | segments => ['/'].intercalate segments

/-- The text in front of the last segment; the root and the empty path have none. -/
def parent? (path : String) : Option String :=
  match dropTrivial (Text.splitOnChar '/' path.toList) with
  | [] | [[]] => none
  | [_] => some ""
  | segments => some (String.ofList (joinSegments (dropTrivial segments.dropLast)))

/-- A path and the paths above it, at most the given number of them. -/
def upwards : Nat → String → List String
  | 0, _ => []
  | count + 1, path =>
    match parent? path with
    | none => []
    | some above => path :: upwards count above

/-- A path and all paths above it, without the root and the empty path. -/
def lineage (path : String) : List String := upwards (path.length + 1) path

/-- The text in front of the last name, and the name. The root, `..` and a `.` at the start are no
names. -/
def splitName (path : String) : Option (String × List Char) := do
  let front ← parent? path
  let name ← (dropTrivial (Text.splitOnChar '/' path.toList)).getLast?
  if name = ['.'] ∨ name = ['.', '.'] then none else some (front, name)

def fileName? (path : String) : Option String := (splitName path).map fun p => String.ofList p.2

/-- The text behind the last dot of the name, unless the name has no other dot than at its start. -/
def extension? (path : String) : Option String := do
  let (_, name) ← splitName path
  let (back, rest) := (name.reverse.takeWhile (· ≠ '.'), name.reverse.dropWhile (· ≠ '.'))
  if rest.length ≤ 1 then none else some (String.ofList back.reverse)

/-- The name without its extension. -/
def stem? (path : String) : Option String := do
  let (_, name) ← splitName path
  let rest := name.reverse.dropWhile (· ≠ '.')
  return String.ofList (if rest.length ≤ 1 then name else rest.tail.reverse)

/-- One path behind another, with a slash between them; an absolute path replaces the first. -/
def append (path more : String) : String :=
  if isAbsolute more then more
  else
    let chars := path.toList
    if chars.isEmpty ∨ chars.getLast? = some '/' then path ++ more else path ++ "/" ++ more

/-- The path with another last name; a path without a name is the directory of the new one. -/
def withFileName (path name : String) : String :=
  match splitName path with
  | none => append path name
  | some (directory, _) => append directory name

end ContractModel.Path
