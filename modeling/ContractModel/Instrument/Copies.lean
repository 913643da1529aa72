import ContractModel.Instrument.Device
import ContractModel.Instrument.Edit

/-! # Instrumented copies

Each edited source gets a copy beside it, under a name of its own. All copies are rendered before
the first one is written, and a copy that cannot be written takes those before it away again.
-/

namespace ContractModel.Copies

def namePrefix : String := "autoFinder_"

/-- The path of the instrumented copy of a source. -/
def pathOf (path : String) : String :=
  Path.withFileName path (namePrefix ++ (Path.fileName? path).getD "")

/-- The copies of the sources with their contents. -/
def renderAll (files : FileTree) :
    List (String × EditScript) → Except InstrumentError (List (String × Bytes))
  | [] => .ok []
  | (file, edits) :: rest =>
    match files.read file with
    | .error fault => .error (.file file fault)
    | .ok source => do
      let output ← EditScript.render file source edits
      let more ← renderAll files rest
      return (pathOf file, output) :: more

/-- Removes what can be removed. -/
def removeAll (files : FileTree) (paths : List String) : FileTree :=
  paths.foldl (fun files path => (files.remove path).toOption.getD files) files

/-- Writes the copies in order; on a failure the ones written before are taken away. -/
def writeAll (device : Device) (files : FileTree) (written : List String) :
    List (String × Bytes) → Except InstrumentError (List String) × FileTree
  | [] => (.ok written, files)
  | (path, content) :: rest =>
    match device.write files path content with
    | (.ok (), files) => writeAll device files (written ++ [path]) rest
    | (.error fault, files) =>
      (.error (.file path fault), removeAll files (written.filter fun path => !device.keeps path))

/-- Writes the copies of all edited sources to a device. The paths are in the order of the
sources. -/
def writeOn (device : Device) (files : FileTree) (edits : SourceEdits) :
    Except InstrumentError (List String) × FileTree :=
  match renderAll files edits.entries with
  | .error e => (.error e, files)
  | .ok copies => writeAll device files [] copies

/-- Writes the copies of all edited sources, where only their paths can be wrong. -/
def write (files : FileTree) (edits : SourceEdits) :
    Except InstrumentError (List String) × FileTree :=
  writeOn .reliable files edits

end ContractModel.Copies
