import AgentWorkflow.Compile.Expansion
import AgentWorkflow.Compile.Root
import AgentWorkflow.Program.Entry

/-!
Generating the program of a graph.

In linear mode the program runs one node, the root; what else is at the top level is declared and not
run. In graph mode it runs a dependency graph of everything at the top level.
-/

namespace AgentWorkflow

/-- A generated program and what is to be known about it. -/
structure Generated where
  program : Program
  warnings : List String
  /-- The id of the node that runs, or the variable of the dependency graph. -/
  root : String
  mode : Mode

/-- What a program runs: a variable, how it runs, the servers to be open, and the nodes whose inputs
supply the prompt. -/
structure Run where
  name : String
  execution : Execution
  servers : List String
  prompters : List String

namespace Blueprint

open Drafting

/-- The variable of the dependency graph that a program runs. -/
def workflowGraph : String := "workflow_graph"

def workflowBuilder : String := "workflow_builder"

variable (b : Blueprint) (build : Build)

/-- Declares a node at the top level that is not run. -/
def declareIdle (id : String) : Drafting String :=
  if b.closures.needsScope id then b.declareWrapper build id .topLevel
  else b.declareInstance build id .topLevel

/-- Warns of connections at the top level that are not followed because one node alone runs. -/
def warnUnchained : Drafting Unit :=
  b.index.topLevel.forM fun source =>
    (b.index.dataSuccessors source).forM fun target =>
      warn ("Linear mode runs a single node; the connection from '" ++ b.index.nameOf source ++
        "' to '" ++ b.index.nameOf target ++ "' is not executed")

/-- Declares what a program needs that runs one node. -/
def linearRun (requested : Mode) (root : String) : Drafting Run := do
  let place := if b.closures.needsScope root then Place.root else .topLevel
  let name ← b.declareInstance build root place
  let node ← ofExcept (b.node root)
  (b.index.topLevel.filter (· ≠ root)).forM fun id => discard (b.declareIdle build id)
  if requested = .linear then b.warnUnchained
  return {
    name
    execution := node.kind.execution
    servers := b.closures.union [root]
    prompters := root :: b.index.composedBy root }

/-- Declares what a program needs that runs a dependency graph. -/
def graphRun : Drafting Run := do
  let members := b.index.topLevel
  if members.isEmpty then failInternal .noTopLevel
  let servers := b.closures.union members
  let place := if servers.isEmpty then Place.topLevel else .root
  let code ← b.dependencyGraph build workflowBuilder workflowGraph members [] place
  emit place ⟨.composition, none, code⟩
  return { name := workflowGraph, execution := .graph, servers, prompters := members }

/-- Declares what a program needs, with a root in linear mode and without one in graph mode. -/
def run (requested : Mode) : Option String → Drafting Run
  | some root => b.linearRun build requested root
  | none => b.graphRun build

def program (options : Options) (r : Run) : Drafting Program := do
  let clients ← b.declareClients r.servers
  let inside ← take .root
  if let some place := (← get).leftover? then failInternal (.leftover place)
  let entry : Entry := {
    root := r.name
    execution := r.execution
    prompt := (b.index.suppliedPrompt? r.prompters).getD options.defaultPrompt
    clients, inside }
  let fragments ← take .topLevel
  return ⟨options.header, (← get).imports, fragments ++ [entry.fragment]⟩

end Blueprint

namespace Index

variable (ix : Index)

/-- The node that runs in a mode; none when a dependency graph runs. -/
def rootIn (mode : Mode) : Except CompileError (Option String) :=
  match mode, ix.root? with
  | .graph, _ => .ok none
  | _, some root => .ok (some root)
  | _, none => .error (.internal .noExecutable)

/-- What is settled before the program of a graph is generated. -/
def blueprint (root : Option String) : Blueprint :=
  let toolbox := Toolbox.ofNodes ix.graph.nodes
  { index := ix
    symbols := .build ix.graph root toolbox.reservedNames
    toolbox
    closures := ix.closures }

def generate (options : Options) (expanders : Expanders) : Drafting Generated := do
  let mode := ix.effectiveMode options.mode
  let root ← Drafting.ofExcept (ix.rootIn mode)
  let b := ix.blueprint root
  let run ← b.run (b.code expanders) options.mode root
  let program ← b.program options run
  let notices := (Toolbox.notices ix.graph.nodes).map ToolNotice.message
  return {
    program
    warnings := notices ++ (← get).diagnostics.warnings
    root := root.getD Blueprint.workflowGraph
    mode }

end Index

end AgentWorkflow
