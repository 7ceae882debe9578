import EGraphSearch.Experiment.Basic
import EGraphSearch.Experiment.Help
import EGraphSearch.Journal

/-!
# The command line

Reads the files that the arguments name, runs the budget experiment, and puts its lines and its
results where the arguments say.
-/

set_option autoImplicit false

namespace EGraphSearch.CommandLine

def contentOf (path : String) : IO (Option String) := do
  try
    return some (← IO.FS.readFile path)
  catch _ => return none

/-- The journal of an experiment: every channel is heard, from plain information upwards. -/
def journalOf (a : Experiment.Arguments) (remarks : List Remark) : Journal :=
  remarks.foldl (fun journal remark => journal.note remark)
    (Journal.initial.setUp "" Severity.info.rank (some a.journalPath))

def publish (journal : Journal) : IO Unit := do
  for line in journal.linesOf (.console 0) do
    IO.println line
  for path in journal.files do
    IO.FS.withFile path .append fun file =>
      (journal.linesOf (.file path)).forM file.putStrLn

/-- Runs an experiment, and answers with the exit status. -/
def perform (a : Experiment.Arguments) : IO UInt32 := do
  let (ended, state) := Experiment.run a (← contentOf a.settingsPath)
  publish (journalOf a state.journal)
  match state.written with
  | none => pure ()
  | some (path, content) => IO.FS.writeFile path content
  match ended with
  | .ok () => return 0
  | .error fault =>
    IO.eprintln (fault.kindName ++ ": " ++ fault.message)
    return 1

def run (words : List String) : IO UInt32 := do
  match Experiment.Arguments.ofWords words with
  | .ok arguments => perform arguments
  | .error (.usage status) =>
    Experiment.helpLines.forM (if status = 0 then IO.println else IO.eprintln)
    return status.toUInt32
  | .error fault =>
    IO.eprintln fault.message
    return 1

end EGraphSearch.CommandLine

def main (words : List String) : IO UInt32 := EGraphSearch.CommandLine.run words
