import CodeAtlas.CommandLine.Run
import CodeAtlas.Workspace.Record

/-!
The program. Its first argument is a file that holds a workspace; the other ones are a command line,
which is run there. What the run leaves is put back into the file.
-/

open CodeAtlas

def runIn (file : String) (words : List String) : IO UInt32 := do
  match Workspace.ofText? (← IO.FS.readFile file) with
  | none =>
    IO.eprintln s!"Error: {file} holds no workspace"
    return 2
  | some w =>
    let (w, report) := CommandLine.run w words
    IO.print report.output
    if let some complaint := report.complaint then
      IO.eprintln s!"Error: {complaint}"
    IO.FS.writeFile file w.save
    return report.exitCode.toUInt32

def main (args : List String) : IO UInt32 :=
  match args with
  | [] => do
    IO.eprint CommandLine.helpText
    return 2
  | file :: words => runIn file words
