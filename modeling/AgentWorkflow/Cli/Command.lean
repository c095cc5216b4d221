import AgentWorkflow.Canvas.Graph
import AgentWorkflow.Cli.Arguments
import AgentWorkflow.Cli.Session
import AgentWorkflow.Compile.Summary

/-!
The command that compiles a graph file.
-/

namespace AgentWorkflow.Cli

def Refusal.message : Refusal → String
  | .noCommand => "a command is required: compile"
  | .unknownCommand word => "unrecognized command '" ++ word ++ "'"
  | .noGraph => "the path of the graph file is required"
  | .surplus word => "unexpected argument '" ++ word ++ "'"
  | .repeated option => "'--" ++ option ++ "' cannot be used multiple times"
  | .noValue option => "a value is required for '" ++ option ++ "'"
  | .badValue option value => "invalid value '" ++ value ++ "' for '--" ++ option ++ "'"
  | .help => "usage: compile [OPTIONS] <GRAPH_PATH>"
  | .version => "kousei 0.1.0"

def Refusal.ending (r : Refusal) : Ending :=
  match r with
  | .help | .version => ⟨0, r.message ++ "\n", ""⟩
  | _ => ⟨2, "", "error: " ++ r.message ++ "\n"⟩

/-- The end of a session that an error stops, after what was printed before. -/
def stop (stderr message : String) : Session :=
  .finish ⟨1, "", stderr ++ "\nError: " ++ message ++ "\n"⟩

def diagnosticLines (errors warnings : List String) : String :=
  String.join (warnings.map (fun w => "warning: " ++ w ++ "\n") ++
    errors.map (fun e => "error: " ++ e ++ "\n"))

def reportLine (r : Report) : String :=
  (if r.valid then "Valid" else "Invalid") ++ " (" ++ toString r.entryPoints.length ++
    " entry point(s), " ++ toString r.disconnected.length ++ " disconnected, " ++
    toString r.cycles.length ++ " cycle(s))\n"

def showReport (json : Bool) (r : Report) : Session :=
  let code := if r.valid then 0 else 1
  if json then .finish ⟨code, r.toJson.print ++ "\n", ""⟩
  else .finish ⟨code, reportLine r, diagnosticLines r.errors r.warnings⟩

/-- Shows the output of a compilation, or writes the program to a file. -/
def showOutput (json : Bool) (out : Option String) (o : Output) : Session :=
  let code := if o.isSuccess then 0 else 1
  let lines := diagnosticLines o.errors o.warnings
  if json then .finish ⟨code, o.toJson.print ++ "\n", ""⟩
  else if !o.isSuccess then .finish ⟨code, "", lines⟩
  else
    match out with
    | none => .finish ⟨code, o.sourceText, lines⟩
    | some path => .write path o.sourceText fun
      | .ok () => .finish ⟨code, "",
        lines ++ "Wrote " ++ path ++ " (root: " ++ o.executionRoot.getD "-" ++ ")\n"⟩
      | .error fault => stop lines ("Failed to write '" ++ path ++ "': " ++ fault.message)

/-- Options with those of the command line in their place. -/
def Arguments.override (a : Arguments) (o : Options) : Options :=
  { o with
    mode := a.mode.getD o.mode
    defaultPrompt := a.defaultPrompt.getD o.defaultPrompt }

def Arguments.process (a : Arguments) (g : Graph) (o : Options) : Session :=
  let compilation : Compilation := ⟨g, a.override o, .standard⟩
  if a.validateOnly then showReport a.json compilation.validate
  else showOutput a.json a.out compilation.compile

/-- Reads the options and goes on with the graph. -/
def Arguments.withOptions (a : Arguments) (g : Graph) : Session :=
  match a.options with
  | none => a.process g .default
  | some path => .read path fun
    | .error fault => stop "" ("Failed to read options file '" ++ path ++ "': " ++ fault.message)
    | .ok text =>
      match Options.ofText text with
      | .error fault => stop "" ("Failed to parse options: " ++ fault.message)
      | .ok options => a.process g options

def Arguments.session (a : Arguments) : Session :=
  match a.graph with
  | none => .finish Refusal.noGraph.ending
  | some path => .read path fun
    | .error fault => stop "" ("Failed to read graph file '" ++ path ++ "': " ++ fault.message)
    | .ok text =>
      match Graph.ofDocumentText text with
      | .error e => stop "" ("Failed to load workflow: " ++ e.message)
      | .ok g => a.withOptions g

def session (args : List String) : Session :=
  match readArguments args with
  | .error refusal => .finish refusal.ending
  | .ok arguments => arguments.session

end AgentWorkflow.Cli
