import ContractModel.CommandLine.Run

/-! # Workspaces

What a run of the program finds: the files, the current directory, and what the compiler runs that
it starts will leave behind. A workspace is read from JSON, and the files that a run leaves are
written as JSON.
-/

namespace ContractModel.CommandLine

structure Workspace where
  files : FileTree
  results : List RunResult

namespace Workspace

/-- A text is a file, `null` is a directory. -/
def readEntry : Json.Written → Option FileEntry
  | .null => some .directory
  | .string s => some (.file (FileTree.textBytes s))
  | _ => none

def readResult (w : Json.Written) : Option RunResult := do
  let ms ← Json.Schema.record ["code", "stdout", "stderr"] w
  return {
    code := ← Json.Schema.defaulted "code" Json.Written.asWord? 0 ms
    stdout := FileTree.textBytes (← Json.Schema.defaulted "stdout" Json.Written.asString? "" ms)
    stderr := FileTree.textBytes (← Json.Schema.defaulted "stderr" Json.Written.asString? "" ms) }

def read (w : Json.Written) : Option Workspace := do
  let ms ← Json.Schema.record ["directory", "files", "runs"] w
  let current ← Json.Schema.defaulted "directory" Json.Written.asString? "/" ms
  let entries ← Json.Schema.defaulted "files" (Json.Schema.map readEntry) ∅ ms
  let results ← Json.Schema.defaulted "runs" (Json.Schema.list readResult) [] ms
  return ⟨.ofEntries current entries.entries, results⟩

def entryJson : FileEntry → Json
  | .directory => .null
  | .file content => .string (Text.decodeLossy content)

/-- The entries of a tree. -/
def filesJson (files : FileTree) : Json := Json.ofMap entryJson files.entries

/-- Runs the program in the workspace; every executable is taken to be installed. -/
def run (w : Workspace) (words : List String) : Outcome :=
  CommandLine.run (.ofPrograms (.recorded (fun _ i => i.isPassable) w.results)) w.files words

end Workspace

end ContractModel.CommandLine
