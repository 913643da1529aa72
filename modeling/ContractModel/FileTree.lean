import ContractModel.Error
import ContractModel.Path
import ContractModel.SortedMap

/-! # File trees

Files and directories by absolute path, and what the operations on them do. A path is walked
component by component, so every directory on the way has to exist; an operation that fails changes
nothing.
-/

namespace ContractModel

abbrev Bytes := List UInt8

inductive FileEntry where
  | file (content : Bytes)
  | directory
  deriving DecidableEq, Repr

/-- The entries of a tree by normal path; the root and the current directory always exist. -/
structure FileTree where
  current : String
  entries : SortedMap String FileEntry

namespace FileTree

def textBytes (s : String) : Bytes := s.toUTF8.toList

def bytesText? (b : Bytes) : Option String := String.fromUTF8? ⟨b.toArray⟩

/-- The components of the current directory. -/
def home (t : FileTree) : List (List Char) := Path.resolve [] t.current

def pathOf (place : List (List Char)) : String := String.ofList (Path.join place)

/-- What is at a place given by its components. -/
def entryAt? (t : FileTree) (place : List (List Char)) : Option FileEntry :=
  if place.isPrefixOf t.home then some .directory else t.entries.get? (pathOf place)

/-- The sizes in bytes that names and paths cannot exceed. -/
def maxNameSize : Nat := 255

def maxPathSize : Nat := 4095

/-- Makes one step from a place that has to be a directory. -/
def step (t : FileTree) (place : List (List Char)) (name : List Char) :
    Except FileFault (List (List Char)) :=
  match t.entryAt? place with
  | none => .error .missing
  | some (.file _) => .error .notDirectory
  | some .directory =>
    if name = [] ∨ name = ['.'] then .ok place
    else if name = ['.', '.'] then .ok place.dropLast
    else if maxNameSize < (String.ofList name).utf8ByteSize then .error .nameTooLong
    else .ok (place ++ [name])

/-- Walks along the segments of a path. -/
def walk (t : FileTree) (path : String) (segments : List (List Char)) :
    Except FileFault (List (List Char)) :=
  segments.foldlM t.step (if Path.isAbsolute path then [] else t.home)

/-- Whether a path can be walked at all. -/
def checkPath (path : String) : Except FileFault Unit :=
  if path.toList.contains '\x00' then .error .nulByte
  else if path.isEmpty then .error .missing
  else if maxPathSize < path.utf8ByteSize then .error .nameTooLong
  else .ok ()

/-- The place that a path leads to. Its last name need not exist; a slash behind a name asks for a
directory. -/
def locate (t : FileTree) (path : String) : Except FileFault (List (List Char)) := do
  checkPath path
  t.walk path (Text.splitOnChar '/' path.toList)

/-- The last name of a path, in a directory that exists. -/
structure Target where
  directory : List (List Char)
  /-- There is none at the end of the root, `.` and `..`. -/
  name : Option (List Char)
  hasSlash : Bool

def target (t : FileTree) (path : String) : Except FileFault Target := do
  checkPath path
  let (slashes, names) := (Text.splitOnChar '/' path.toList).reverse.span (· = [])
  match names with
  | [] => return ⟨[], none, true⟩
  | last :: front =>
    let directory ← t.step (← t.walk path front.reverse) []
    let name := if last = ['.'] ∨ last = ['.', '.'] then none else some last
    return ⟨directory, name, !slashes.isEmpty⟩

def entry? (t : FileTree) (path : String) : Except FileFault FileEntry := do
  match t.entryAt? (← t.locate path) with
  | some e => return e
  | none => throw .missing

def isDirectory (t : FileTree) (path : String) : Bool :=
  match t.entry? path with
  | .ok .directory => true
  | _ => false

def read (t : FileTree) (path : String) : Except FileFault Bytes := do
  match ← t.entry? path with
  | .file content => return content
  | .directory => throw .isDirectory

def readText (t : FileTree) (path : String) : Except FileFault String := do
  match bytesText? (← t.read path) with
  | some s => return s
  | none => throw .notText

/-- Puts an entry at a place. -/
def put (t : FileTree) (place : List (List Char)) (e : FileEntry) : FileTree :=
  { t with entries := t.entries.insert (pathOf place) e }

/-- The place where a file may be created or overwritten. -/
def writable (t : FileTree) (path : String) : Except FileFault (List (List Char)) := do
  let target ← t.target path
  match target.name, target.hasSlash with
  | some name, false =>
    let place ← t.step target.directory name
    match t.entryAt? place with
    | some .directory => throw .isDirectory
    | _ => return place
  | _, _ => throw .isDirectory

def write (t : FileTree) (path : String) (content : Bytes) : Except FileFault FileTree := do
  return t.put (← t.writable path) (.file content)

def remove (t : FileTree) (path : String) : Except FileFault FileTree := do
  let target ← t.target path
  match target.name with
  | none => throw .isDirectory
  | some name =>
    let place ← t.step target.directory name
    match t.entryAt? place with
    | some (.file _) =>
      if target.hasSlash then throw .notDirectory
      else return { t with entries := t.entries.erase (pathOf place) }
    | some .directory => throw .isDirectory
    | none => throw .missing

/-- Copies a file; onto itself it leaves an empty one. -/
def copy (t : FileTree) (source target : String) : Except FileFault FileTree := do
  let sourcePlace ← t.locate source
  match t.entryAt? sourcePlace with
  | none => throw .missing
  | some .directory => throw .notRegular
  | some (.file content) =>
    let targetPlace ← t.writable target
    return t.put targetPlace (.file (if sourcePlace = targetPlace then [] else content))

/-- Makes a directory in one that exists. -/
def makeDirectory (t : FileTree) (path : String) : Except FileFault FileTree := do
  let target ← t.target path
  match target.name with
  | none => throw .alreadyExists
  | some name =>
    let place ← t.step target.directory name
    match t.entryAt? place with
    | some _ => throw .alreadyExists
    | none => return t.put place .directory

/-- Makes a directory unless it exists. -/
def ensureDirectory (t : FileTree) (path : String) : Except FileFault FileTree :=
  match t.makeDirectory path with
  | .error .alreadyExists => if t.isDirectory path then .ok t else .error .alreadyExists
  | result => result

/-- Ensures the first of the paths that stands in a directory, and the ones in front of it, from
there back to the first. -/
def ensureLine (t : FileTree) : List String → Except FileFault FileTree
  | [] => .ok t
  | path :: above =>
    match t.ensureDirectory path with
    | .error .missing => do (← t.ensureLine above).ensureDirectory path
    | result => result

/-- Makes a directory and those above it that are missing. -/
def createDirectories (t : FileTree) (path : String) : Except FileFault FileTree :=
  t.ensureLine (Path.lineage path)

/-- The absolute path without `.` and `..` of something that exists. -/
def canonical (t : FileTree) (path : String) : Except FileFault String := do
  let place ← t.locate path
  match t.entryAt? place with
  | some _ => return pathOf place
  | none => throw .missing

/-- Adds an entry and the directories above it, unless something is in the way. -/
def withEntry (t : FileTree) (path : String) (e : FileEntry) : FileTree :=
  let attempt (t : FileTree) (r : Except FileFault FileTree) : FileTree := r.toOption.getD t
  let t := match Path.splitName path with
    | some (directory, _) => attempt t (t.createDirectories directory)
    | none => t
  match e with
  | .file content => attempt t (t.write path content)
  | .directory => attempt t (t.createDirectories path)

/-- The tree with the entries, added in order. -/
def ofEntries (current : String) (es : List (String × FileEntry)) : FileTree :=
  es.foldl (fun t e => t.withEntry e.1 e.2) ⟨current, ∅⟩

end FileTree

end ContractModel
