import AgentWorkflow.Graph.Digraph

/-!
Checking a workflow graph.

All checks run, so one report lists everything. Missing kinds of nodes, missing connections and cycles
are problems and make a graph invalid; whatever else stands out is advice.
-/

namespace AgentWorkflow

/-- Something that makes a graph invalid. -/
inductive Problem where
  | noExecutable
  | noInput
  | noOutput
  | idleInput (node : Node)
  | idleOutput (node : Node)
  | cycle (path : List String)
  | compositionCycle (path : List String)
  deriving DecidableEq, Repr

/-- Something to be noted about a graph. -/
inductive Advice where
  | noEntryPoint
  | unreachable (id : String)
  | unfedEntry (id : String)
  | ignoredEdge (edge : Edge) (reason : String)
  deriving DecidableEq, Repr

/-- The names of the nodes along a path. -/
def Graph.describe (g : Graph) (path : List String) : String :=
  " → ".intercalate (path.map g.nameOf)

def Problem.message (g : Graph) : Problem → String
  | .noExecutable => "Workflow needs at least one agent, orchestrator, swarm or graph node"
  | .noInput => "Workflow needs at least one input node"
  | .noOutput => "Workflow needs at least one output node"
  | .idleInput node => "Input node '" ++ node.displayName ++ "' is not connected to any node"
  | .idleOutput node => "Output node '" ++ node.displayName ++ "' has no incoming connection"
  | .cycle path => "Cycle detected: " ++ g.describe path
  | .compositionCycle path => "Composition cycle detected: " ++ g.describe path

def Advice.message (g : Graph) : Advice → String
  | .noEntryPoint => "No entry point found: every executable node receives input from another node"
  | .unreachable id => "'" ++ g.nameOf id ++ "' is not reachable from any input node"
  | .unfedEntry id =>
    "Entry point '" ++ g.nameOf id ++
      "' has no input node connected; it will receive the default prompt"
  | .ignoredEdge edge reason =>
    "Ignored connection from '" ++ g.nameOf edge.source ++ "' to '" ++ g.nameOf edge.target ++
      "': " ++ reason

structure Report where
  valid : Bool
  errors : List String
  warnings : List String
  /-- The executables that start the flow. -/
  entryPoints : List String
  /-- The executables that the flow does not reach. -/
  disconnected : List String
  /-- The cycles, each a path back to its start. -/
  cycles : List (List String)
  deriving DecidableEq, Repr

def Report.empty : Report := ⟨false, [], [], [], [], []⟩

namespace Index

variable (ix : Index)

/-- Kinds of nodes that a workflow needs and the graph lacks. -/
def missingKinds : List Problem :=
  (if ix.executables.isEmpty then [.noExecutable] else []) ++
    (if ix.graph.nodes.any (·.kind.isInput) then [] else [.noInput]) ++
    (if ix.graph.nodes.any (·.kind.isOutput) then [] else [.noOutput])

/-- Inputs that lead nowhere and outputs that nothing leads to. -/
def idleNodes : List Problem :=
  ix.graph.nodes.filterMap fun node =>
    if node.kind.isInput ∧ ix.outgoingCount node.id = 0 then some (.idleInput node)
    else if node.kind.isOutput ∧ ix.incomingCount node.id = 0 then some (.idleOutput node)
    else none

def cycles (role : EdgeRole) : List (List String) :=
  (ix.arcs role).cycles ix.executables

def problems : List Problem :=
  ix.missingKinds ++ ix.idleNodes ++ (ix.cycles .dataFlow).map .cycle ++
    (ix.cycles .membership).map .compositionCycle

/-- The executables that start the flow: they are no members and nothing passes data to them. -/
def entryPoints : List String :=
  ix.executables.filter fun id => !ix.isMember id && (ix.dataPredecessors id).isEmpty

/-- Where the flow starts: at the entry points that an input feeds, or at all of them if none is fed. -/
def seeds : List String :=
  let fed := ix.entryPoints.filter ix.isFed
  if fed.isEmpty then ix.entryPoints else fed

/-- The arcs along which the flow spreads. -/
def flow : Digraph :=
  ix.arcs .dataFlow ++ ix.arcs .membership

/-- The executables that the flow does not reach; none when it has no start. -/
def disconnected : List String :=
  if ix.entryPoints.isEmpty then []
  else
    let reached := ix.flow.reachable ix.seeds
    ix.executables.filter fun id => !reached.contains id

def advice : List Advice :=
  (if ix.entryPoints.isEmpty ∧ ¬ix.executables.isEmpty then [.noEntryPoint] else []) ++
    ix.disconnected.map .unreachable ++
    (ix.entryPoints.filter fun id => !ix.isFed id).map .unfedEntry ++
    (ix.illTyped ++ ix.dangling).map fun (_, edge, reason) => .ignoredEdge edge reason

def validate : Report where
  valid := ix.problems.isEmpty
  errors := ix.problems.map (·.message ix.graph)
  warnings := ix.advice.map (·.message ix.graph)
  entryPoints := ix.entryPoints
  disconnected := ix.disconnected
  cycles := ix.cycles .dataFlow ++ ix.cycles .membership

end Index

end AgentWorkflow
