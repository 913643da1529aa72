import ContractModel.FileTree

/-! # Devices

Writing and removing a file can fail for other reasons than its path: the disk may be full or fail,
and a file may be protected.
-/

namespace ContractModel

/-- What becomes of a file that is created, or emptied, to be filled with a content. -/
inductive Storing where
  | stored
  /-- The file is not created. -/
  | refused (fault : FileFault)
  /-- The file is created, but has only so many bytes of the content. -/
  | cut (length : Nat) (fault : FileFault)

/-- What holds the files of a tree. -/
structure Device where
  storing : FileTree → String → Bytes → Storing
  /-- Whether a file that was written cannot be removed again. -/
  keeps : String → Bool

namespace Device

/-- The device that stores and removes everything. -/
def reliable : Device := ⟨fun _ _ _ => .stored, fun _ => false⟩

/-- Creates or empties a file and writes the content to it. What was written stays on a failure. -/
def write (device : Device) (files : FileTree) (path : String) (content : Bytes) :
    Except FileFault Unit × FileTree :=
  match files.writable path with
  | .error fault => (.error fault, files)
  | .ok place =>
    match device.storing files path content with
    | .stored => (.ok (), files.put place (.file content))
    | .refused fault => (.error fault, files)
    | .cut length fault => (.error fault, files.put place (.file (content.take length)))

/-- Every file that is created takes all of its content. -/
def Whole (device : Device) : Prop :=
  ∀ files path content length fault, device.storing files path content ≠ .cut length fault

end Device

end ContractModel
