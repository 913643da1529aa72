import ContractModel.CommandLine.Workspace

/-! # The program

Reads a workspace as one line of JSON from standard input, runs in it, and prints the files it
leaves behind. The exit code and the messages are those of the run.
-/

open ContractModel

def main (words : List String) : IO UInt32 := do
  let line ← (← IO.getStdin).getLine
  match (Json.Written.parse line).bind CommandLine.Workspace.read with
  | none =>
    IO.eprintln "The workspace cannot be read"
    return 2
  | some w =>
    let outcome := w.run words
    IO.print outcome.stdout
    unless outcome.stderr.isEmpty do IO.eprintln outcome.stderr
    IO.println (CommandLine.Workspace.filesJson outcome.files).compact
    return outcome.code.toUInt32
