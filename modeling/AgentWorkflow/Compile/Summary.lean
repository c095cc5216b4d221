import AgentWorkflow.Compile.Compilation
import AgentWorkflow.Json.Printer

/-!
The results of checking and compiling as JSON values.
-/

namespace AgentWorkflow

open Json

def Report.toJson (r : Report) : Json :=
  .object [
    ("valid", .bool r.valid),
    ("errors", texts r.errors),
    ("warnings", texts r.warnings),
    ("entryPoints", texts r.entryPoints),
    ("disconnected", texts r.disconnected),
    ("cycles", .array (r.cycles.map texts))]

def Output.toJson (o : Output) : Json :=
  .object [
    ("sourceText", .string o.sourceText),
    ("imports", texts o.imports),
    ("errors", texts o.errors),
    ("warnings", texts o.warnings),
    ("executionRoot", text o.executionRoot),
    ("mode", text (o.mode.map Mode.name)),
    ("validation", o.validation.toJson)]

end AgentWorkflow
