import AgentWorkflow.Cli.Command

/-!
The command-line program.
-/

namespace AgentWorkflow.Cli

/-- What keeps a file from being read or written. -/
def FileFault.ofError : IO.Error → FileFault
  | .noFileOrDirectory .. => .notFound
  | .inappropriateType .. => .isDirectory
  | e => .other (toString e)

/-- Holds a session with the files of the system. -/
def Session.hold : Session → IO Ending
  | .finish ending => return ending
  | .read path proceed => do
    match ← (IO.FS.readFile path).toBaseIO with
    | .ok text => hold (proceed (.ok text))
    | .error e => hold (proceed (.error (.ofError e)))
  | .write path text proceed => do
    match ← (IO.FS.writeFile path text).toBaseIO with
    | .ok () => hold (proceed (.ok ()))
    | .error e => hold (proceed (.error (.ofError e)))

end AgentWorkflow.Cli

def main (args : List String) : IO UInt32 := do
  let ending ← (AgentWorkflow.Cli.session args).hold
  IO.print ending.stdout
  IO.eprint ending.stderr
  return ending.code
