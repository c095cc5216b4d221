import AgentWorkflow.Canvas.Document
import AgentWorkflow.Graph.Schema

/-!
The workflow graph of a document.

Loading a graph can fail in four ways; `LoadError.message` holds their wording. A graph that was loaded
has no two nodes of one id.
-/

namespace AgentWorkflow

open Json

inductive LoadError where
  /-- The text is no JSON. -/
  | badText (fault : Fault)
  /-- The text is JSON, but no document. -/
  | noDocument
  | unknownKind (id kind : String)
  | duplicateId (id : String)
  | badData (id : String) (cause : Cause)
  deriving DecidableEq, Repr

def LoadError.message : LoadError → String
  | .badText fault => "Failed to parse graph JSON: " ++ fault.message
  | .noDocument => "Failed to parse graph JSON: " ++ (Cause.noVariant "UiDocument").message
  | .unknownKind id kind => "Node '" ++ id ++ "' has an unknown kind: '" ++ kind ++ "'"
  | .duplicateId id => "Node id '" ++ id ++ "' is used by more than one node"
  | .badData id cause => "Node '" ++ id ++ "' has invalid data: " ++ cause.message

/-- The graph, unless two of its nodes share an id. -/
def Graph.checked (g : Graph) : Except LoadError Graph :=
  match g.duplicateId? with
  | some id => .error (.duplicateId id)
  | none => .ok g

namespace CanvasNode

/-- The type of a node: its own, or the one among its data. -/
def tag (n : CanvasNode) : String :=
  (n.type <|> (n.data.get? "nodeType").bind Json.text?).getD ""

def label (n : CanvasNode) : String :=
  ((n.data.get? "label").bind Json.text?).getD ""

/-- The settings among the data of a node; defaults when it has no data. -/
def settings {σ : Type} (n : CanvasNode) (r : Record σ) : Except LoadError σ :=
  if n.data.isNull then .ok r.initial
  else
    match r.codec.ofMemory n.data with
    | .ok settings => .ok settings
    | .error fault => .error (.badData n.id fault.cause)

def kind (n : CanvasNode) : Except LoadError NodeKind :=
  match n.tag with
  | "agent" | "agentNode" => .agent <$> n.settings AgentSettings.record
  | "orchestrator" | "orchestrator-agent" | "orchestratorAgent" =>
    .orchestrator <$> n.settings OrchestratorSettings.record
  | "swarm" | "swarmNode" => .swarm <$> n.settings SwarmSettings.record
  | "graph" | "graph-container" | "graphContainer" =>
    .container <$> n.settings ContainerSettings.record
  | "tool" | "built-in-tool" | "builtin-tool" | "builtinTool" =>
    .builtinTool <$> n.settings BuiltinToolSettings.record
  | "custom-tool" | "customTool" => .customTool <$> n.settings CustomToolSettings.record
  | "mcp-tool" | "mcp-server" | "mcpTool" | "external-tool-server" =>
    .server <$> n.settings ServerSettings.record
  | "input" | "inputNode" => .input <$> n.settings InputSettings.record
  | "output" | "outputNode" => .output <$> n.settings OutputSettings.record
  | tag => .error (.unknownKind n.id tag)

def node (n : CanvasNode) : Except LoadError Node := do
  return ⟨n.id, n.label, ← n.kind⟩

end CanvasNode

/-- The handle at which an edge ends when it names none. -/
def NodeKind.defaultTarget (kind : Option NodeKind) : Handle :=
  if kind.any NodeKind.isOutput then .input else .userInput

/-- The workflow edge of a canvas edge, among the nodes of the graph. -/
def CanvasEdge.edge (nodes : List Node) (e : CanvasEdge) : Edge where
  source := e.source
  sourceHandle := (e.sourceHandle.map Handle.ofName).getD .output
  target := e.target
  targetHandle := (e.targetHandle.map Handle.ofName).getD
    (NodeKind.defaultTarget (((⟨nodes, []⟩ : Graph).node? e.target).map Node.kind))

def Canvas.graph (c : Canvas) : Except LoadError Graph := do
  let nodes ← c.nodes.mapM CanvasNode.node
  Graph.checked ⟨nodes, c.edges.map (·.edge nodes)⟩

def Document.ofText (text : String) : Except LoadError Document :=
  match Json.Reading.value text with
  | .error fault => .error (.badText fault)
  | .ok value =>
    match Document.ofJson? value with
    | some document => .ok document
    | none => .error .noDocument

def Document.graph (d : Document) : Except LoadError Graph :=
  d.canvas.graph

def Graph.ofDocumentText (text : String) : Except LoadError Graph := do
  (← Document.ofText text).graph

end AgentWorkflow
