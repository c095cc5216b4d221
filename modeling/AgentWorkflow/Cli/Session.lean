import AgentWorkflow.Entries

/-!
Sessions of a command-line program with its files.

A session is a dialogue: it reads and writes files, depending on what came of it before, and ends with
an exit code and what it prints. `Directory` answers a session from files that are given.
-/

namespace AgentWorkflow.Cli

inductive FileFault where
  | notFound
  | isDirectory
  | notDirectory
  | other (message : String)
  deriving DecidableEq, Repr

def FileFault.message : FileFault → String
  | .notFound => "No such file or directory (os error 2)"
  | .isDirectory => "Is a directory (os error 21)"
  | .notDirectory => "Not a directory (os error 20)"
  | .other message => message

structure Ending where
  code : UInt32
  stdout : String
  stderr : String
  deriving DecidableEq, Repr

inductive Session where
  | finish (ending : Ending)
  | read (path : String) (proceed : Except FileFault String → Session)
  | write (path text : String) (proceed : Except FileFault Unit → Session)

/-- A directory that holds files only. -/
abbrev Directory := List (String × String)

namespace Directory

def names (path : String) : List String :=
  ((path.splitOn "/").filter fun name => name ≠ "" ∧ name ≠ ".")

/-- Whether a path can only lead to a directory. -/
def isOpen (path : String) : Bool :=
  path.toList.getLast? == some '/' || (path.splitOn "/").getLast? == some "."

/-- The file that a path leads to, whether it is there or not. -/
def file (d : Directory) (path : String) : Except FileFault String :=
  match path.toList.head?, names path with
  | some '/', _ :: _ => .error .notFound
  | _, [] => .error .isDirectory
  | _, [name] => .ok name
  | _, name :: _ => .error (if (Entries.get? name d).isSome then .notDirectory else .notFound)

def read (d : Directory) (path : String) : Except FileFault String := do
  match Entries.get? (← d.file path) d with
  | none => throw .notFound
  | some text => if isOpen path then throw .notDirectory else return text

def write (d : Directory) (path text : String) : Except FileFault Directory := do
  let name ← d.file path
  if isOpen path then throw .isDirectory
  return Entries.put name text d

/-- Holds a session; gives its ending and the directory afterwards. -/
def hold (d : Directory) : Session → Ending × Directory
  | .finish ending => (ending, d)
  | .read path proceed => hold d (proceed (d.read path))
  | .write path text proceed =>
    match d.write path text with
    | .ok after => hold after (proceed (.ok ()))
    | .error fault => hold d (proceed (.error fault))

end Directory

end AgentWorkflow.Cli
