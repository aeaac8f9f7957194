import Workflow.Command.Outcome

/-!
# The program

Everything that has to be asked of the system: the environment, the files in reach, and where to
print.
-/

open Workflow

/-- The text of a file, if there is one. -/
def fileText? (file : String) : IO (Option String) := do
  try
    return some (← IO.FS.readFile file)
  catch _ =>
    return none

/-- The variables in a block of `NAME=value` entries that end in a zero character. -/
def environmentOfBlock (block : String) : Environment :=
  (block.splitOn "\x00").filterMap fun entry =>
    let cs := entry.toList
    let name := cs.takeWhile (· ≠ '=')
    if name.length < cs.length then
      some (String.ofList name, String.ofList (cs.drop (name.length + 1)))
    else none

def main (words : List String) : IO UInt32 := do
  let block ← fileText? "/proc/self/environ"
  let environment := (block.map environmentOfBlock).getD []
  let environmentFile ← fileText? environmentFileName
  let wanted := (CommandLine.ofArguments words).toOption.bind fun line => line.request.file?
  let content ← match wanted with
    | some file => fileText? file
    | none => pure none
  let files := fun name =>
    if name = environmentFileName then environmentFile
    else if some name = wanted then content
    else none
  let outcome := Outcome.ofArguments words environment files
  IO.print outcome.output
  if let some complaint := outcome.complaint? then
    IO.eprintln complaint
  return outcome.exitCode
