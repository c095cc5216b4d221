import AgentWorkflow.Json.Record

/-!
Options of a compilation.
-/

namespace AgentWorkflow

open Json

/-- How the top level of a workflow becomes a program: a single node that is run, a dependency graph of
all top-level nodes, or whichever of the two fits. -/
inductive Mode where
  | auto
  | linear
  | graph
  deriving DecidableEq, Repr

namespace Mode

def name : Mode → String
  | .auto => "auto"
  | .linear => "linear"
  | .graph => "graph"

def choice : Choice Mode where
  spellings := [("auto", .auto), ("linear", .linear), ("graph", .graph)]
  name := name

end Mode

/-- Options that shape the program without changing the workflow. -/
structure Options where
  mode : Mode
  /-- The prompt used when neither the caller nor an input node supplies one. -/
  defaultPrompt : String
  /-- Whether the program starts with a comment that says where it comes from. -/
  header : Bool
  deriving DecidableEq, Repr

namespace Options

def default : Options where
  mode := .auto
  defaultPrompt := "Hello! How can you help me today?"
  header := true

def record : Record Options where
  name := "CompileOptions"
  initial := .default
  fields := [
    .of "mode" [] Mode.choice.codec mode fun v r => { r with mode := v },
    .of "defaultPrompt" [] .text defaultPrompt fun v r => { r with defaultPrompt := v },
    .of "header" [] .flag header fun v r => { r with header := v }]
  inner := none

def ofText (text : String) : Except Fault Options :=
  record.codec.ofText text

end Options

end AgentWorkflow
