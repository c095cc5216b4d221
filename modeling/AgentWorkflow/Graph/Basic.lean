import AgentWorkflow.Graph.Settings

/-!
Workflow graphs: nodes of nine kinds, linked from handle to handle.
-/

namespace AgentWorkflow

/-- A connection point of a node. The same two nodes may be linked in several ways, told apart by the
handles. -/
inductive Handle where
  | output
  | userInput
  | tools
  | toolOutput
  | subAgents
  | orchestratorInput
  | input
  | other (name : String)
  deriving DecidableEq, Repr

namespace Handle

def name : Handle → String
  | .output => "output"
  | .userInput => "user-input"
  | .tools => "tools"
  | .toolOutput => "tool-output"
  | .subAgents => "sub-agents"
  | .orchestratorInput => "orchestrator-input"
  | .input => "input"
  | .other name => name

/-- The handle of a name; some handles have a second name. -/
def ofName (name : String) : Handle :=
  match name with
  | "output" => .output
  | "user-input" | "userInput" => .userInput
  | "tools" | "tool-input" => .tools
  | "tool-output" | "toolOutput" => .toolOutput
  | "sub-agents" | "subAgents" => .subAgents
  | "orchestrator-input" | "orchestratorInput" => .orchestratorInput
  | "input" => .input
  | _ => .other name

end Handle

inductive NodeKind where
  | agent (settings : AgentSettings)
  | orchestrator (settings : OrchestratorSettings)
  | swarm (settings : SwarmSettings)
  | container (settings : ContainerSettings)
  | builtinTool (settings : BuiltinToolSettings)
  | customTool (settings : CustomToolSettings)
  | server (settings : ServerSettings)
  | input (settings : InputSettings)
  | output (settings : OutputSettings)
  deriving DecidableEq, Repr

namespace NodeKind

def slug : NodeKind → String
  | .agent _ => "agent"
  | .orchestrator _ => "orchestrator"
  | .swarm _ => "swarm"
  | .container _ => "graph"
  | .builtinTool _ => "tool"
  | .customTool _ => "custom_tool"
  | .server _ => "mcp_server"
  | .input _ => "input"
  | .output _ => "output"

/-- Nodes that run: agents, orchestrators, swarms and containers. -/
def isExecutable : NodeKind → Bool
  | .agent _ | .orchestrator _ | .swarm _ | .container _ => true
  | _ => false

def isComposite : NodeKind → Bool
  | .orchestrator _ | .swarm _ | .container _ => true
  | _ => false

def isTool : NodeKind → Bool
  | .builtinTool _ | .customTool _ | .server _ => true
  | _ => false

def isInput : NodeKind → Bool
  | .input _ => true
  | _ => false

def isOutput : NodeKind → Bool
  | .output _ => true
  | _ => false

def isServer : NodeKind → Bool
  | .server _ => true
  | _ => false

/-- The agent that a node runs itself: agents and orchestrators have one. -/
def agent? : NodeKind → Option AgentSettings
  | .agent settings => some settings
  | .orchestrator settings => some settings.agent
  | _ => none

end NodeKind

structure Node where
  id : String
  label : String
  kind : NodeKind
  deriving DecidableEq, Repr

/-- The name that messages use for a node: its label, or its kind and the end of its id. -/
def Node.displayName (n : Node) : String :=
  (Text.trimmed? n.label).getD (n.kind.slug ++ " …" ++ Text.lastFour n.id)

/-- A link from a handle of one node to a handle of another. -/
structure Edge where
  source : String
  sourceHandle : Handle
  target : String
  targetHandle : Handle
  deriving DecidableEq, Repr

structure Graph where
  nodes : List Node
  edges : List Edge
  deriving DecidableEq, Repr

namespace Graph

/-- The first id in a list that occurred before. -/
def repeatedId? (seen : List String) : List String → Option String
  | [] => none
  | id :: rest => if seen.contains id then some id else repeatedId? (id :: seen) rest

/-- The first node id that an earlier node already has. -/
def duplicateId? (g : Graph) : Option String :=
  repeatedId? [] (g.nodes.map Node.id)

/-- The node of an id; the last one when several share it. -/
def node? (g : Graph) (id : String) : Option Node :=
  g.nodes.reverse.find? (·.id == id)

/-- The place of the node of an id in the order of declaration. -/
def position? (g : Graph) (id : String) : Option Nat :=
  (g.nodes.reverse.findIdx? (·.id == id)).map fun i => g.nodes.length - 1 - i

/-- The name that messages use for an id: that of its node, or the end of the id. -/
def nameOf (g : Graph) (id : String) : String :=
  match g.node? id with
  | some node => node.displayName
  | none => "…" ++ Text.lastFour id

def executables (g : Graph) : List Node :=
  g.nodes.filter (·.kind.isExecutable)

end Graph

end AgentWorkflow
