import AgentWorkflow.Compile.Generation
import AgentWorkflow.Graph.Validation

/-!
Compiling a graph: checking it, and generating its program if it is valid.
-/

namespace AgentWorkflow

/-- What a compilation results in. When there are errors there is no program. -/
structure Output where
  sourceText : String
  imports : List String
  errors : List String
  warnings : List String
  executionRoot : Option String
  mode : Option Mode
  validation : Report
  deriving DecidableEq, Repr

namespace Output

def isSuccess (o : Output) : Bool :=
  o.errors.isEmpty

def failed (validation : Report) (errors : List String) : Output where
  sourceText := ""
  imports := []
  errors := errors
  warnings := validation.warnings
  executionRoot := none
  mode := none
  validation := validation

def succeeded (validation : Report) (g : Generated) : Output where
  sourceText := g.program.text
  imports := g.program.imports.lines
  errors := []
  warnings := validation.warnings ++ g.warnings
  executionRoot := some g.root
  mode := some g.mode
  validation := validation

end Output

def Failure.toError : Failure → CompileError
  | .error e => e
  | .crash => .internal .crashed

structure Compilation where
  graph : Graph
  options : Options
  expanders : Expanders

namespace Compilation

def ofGraph (g : Graph) : Compilation := ⟨g, .default, .standard⟩

variable (c : Compilation)

def validate : Report :=
  c.graph.index.validate

/-- Generates the program, with the draft that is left over. -/
def generate : Except Failure Generated × Draft :=
  (c.graph.index.generate c.options c.expanders).run.run .empty

/-- Checks the graph and generates its program if it is valid, with what expanders noted, in order. -/
def compileNoted : Output × List String :=
  let validation := c.validate
  if validation.valid then
    match c.generate with
    | (.ok g, draft) => (.succeeded validation g, draft.notes.reverse)
    | (.error f, draft) => (.failed validation [f.toError.message], draft.notes.reverse)
  else (.failed validation validation.errors, [])

/-- Checks the graph and generates its program if it is valid. -/
def compile : Output :=
  c.compileNoted.1

end Compilation

end AgentWorkflow
