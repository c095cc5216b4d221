import AgentWorkflow.Compile.Declaration

/-!
The code that constructs the instance of a node, pattern by pattern.

An agent is a model with instructions and tools. An orchestrator is an agent with a tool for each of its
members. A swarm is a list of agents. A container is a dependency graph of its members. Members are
demanded through the draft, which places their code before that of the node.
-/

namespace AgentWorkflow

/-- The instructions of an agent: its own and those for the coordination of others, whichever are not
blank. -/
def AgentSettings.instructions (s : AgentSettings) (coordination : Option String) : String :=
  "\n\n".intercalate ((Text.trimmed? s.systemPrompt).toList ++
    (coordination.bind Text.trimmed?).toList)

def ContainerSettings.limits (s : ContainerSettings) : List Limit :=
  (s.executionTimeout.toList.map .executionTimeout) ++ (s.nodeTimeout.toList.map .nodeTimeout) ++
    (s.maxNodeExecutions.toList.map .maxNodeExecutions) ++
    (if s.resetOnRevisit then [.resetOnRevisit] else [])

def NodeKind.isTeammate : NodeKind → Bool
  | .agent _ | .orchestrator _ => true
  | _ => false

namespace Blueprint

open Drafting

variable (b : Blueprint) (build : Build)

/-- The code of an agent. Its tools are those attached to the node, with the delegates between
functions and servers. -/
def agentCode (node : Node) (settings : AgentSettings) (delegates : List String)
    (coordination : Option String) : Drafting (List Code) := do
  let ident ← ofExcept (b.ident node.id)
  let model ← ofExcept (b.name node.id .model)
  let name ← ofExcept (b.name node.id .agent)
  let (servers, functions) := (← b.declareTools node.id).partition fun (a, _) => a.isServer
  let tools := functions.map (·.2) ++ delegates.map .delegate ++ servers.map (·.2)
  let code := [Code.model model settings.model,
    .agent name ident model (settings.instructions coordination) tools settings.description]
  use (code.flatMap Code.features)
  return code

def orchestratorCode (node : Node) (settings : OrchestratorSettings) (place : Place) :
    Drafting (List Code) := do
  let members := b.index.members node.id
  if members.isEmpty then
    warn ("Orchestrator '" ++ node.displayName ++
      "' has no sub-agents and will run as a plain agent")
  let delegates ← members.mapM fun member =>
    b.declareWrapper build member (b.dependencyPlace member place)
  b.agentCode node settings.agent delegates settings.coordinationPrompt

def declareTeammate (node : Node) (place : Place) (member : String) : Drafting String := do
  let teammate ← ofExcept (b.node member)
  if teammate.kind.isTeammate then
    b.declareInstance build member (b.memberPlace member place)
  else
    fail (.badComposition node.displayName
      (.swarmMember teammate.displayName teammate.kind.slug))

/-- Whether a text names a member: by its id, its label or its identifier. -/
def isNamed (wanted member : String) : Bool :=
  member == wanted ||
    (b.index.node? member).any (fun n => Text.trim n.label == wanted) ||
    b.symbols.ident? member == some (Identifier.ofLabel wanted)

/-- The variable of the member that a swarm starts with, if its settings name one. -/
def swarmEntry (node : Node) (settings : SwarmSettings) (team : List (String × String)) :
    Drafting (Option String) := do
  match settings.entryPoint.bind Text.nonBlank? with
  | none => return none
  | some wanted =>
    match team.find? fun (member, _) => b.isNamed (Text.trim wanted) member with
    | some (_, name) => return some name
    | none =>
      warn ("Swarm '" ++ node.displayName ++ "' names entry point '" ++ wanted ++
        "', which is not one of its members; the first member starts instead")
      return none

def swarmCode (node : Node) (settings : SwarmSettings) (place : Place) : Drafting (List Code) := do
  let members := b.index.members node.id
  if members.isEmpty then fail (.badComposition node.displayName .emptySwarm)
  let names ← members.mapM (b.declareTeammate build node place)
  let entry ← b.swarmEntry node settings (members.zip names)
  use [.swarm]
  return [.swarm (← ofExcept (b.instanceVariable node.id)) names entry settings]

/-- Declares a member of a dependency graph and gives its variable and its identifier. -/
def declareStep (place : Place) (member : String) : Drafting (String × String) := do
  let name ← b.declareInstance build member (b.memberPlace member place)
  return (name, ← ofExcept (b.ident member))

/-- The edges of the dependency graph among members with identifiers: those along which data flows. -/
def steps (idents : List (String × String)) : List (String × String) :=
  idents.flatMap fun (member, ident) =>
    (b.index.dataSuccessors member).filterMap fun next =>
      (Entries.get? next idents).map fun target => (ident, target)

/-- The identifiers of those members that no other member passes data to. -/
def starts (idents : List (String × String)) : List String :=
  (idents.filter fun (member, _) =>
    !(b.index.dataPredecessors member).any fun before => (Entries.get? before idents).isSome).map
    (·.2)

/-- The code of a dependency graph with its builder. -/
def dependencyGraph (builder name : String) (members : List String) (limits : List Limit)
    (place : Place) : Drafting (List Code) := do
  let members := distinct members
  let declared ← members.mapM (b.declareStep build place)
  let idents := members.zip (declared.map (·.2))
  use [.graphBuilder]
  return .newBuilder builder ::
    (declared.map fun (var, ident) => .addNode builder var ident) ++
    ((b.steps idents).map fun (source, target) => .addEdge builder source target) ++
    ((b.starts idents).map (.entryPoint builder)) ++
    limits.map (.limit builder) ++ [.build name builder]

def containerCode (node : Node) (settings : ContainerSettings) (place : Place) :
    Drafting (List Code) := do
  let members := b.index.members node.id
  if members.isEmpty then fail (.badComposition node.displayName .emptyContainer)
  let builder ← ofExcept (b.name node.id .builder)
  let name ← ofExcept (b.name node.id .graph)
  b.dependencyGraph build builder name members settings.limits place

def patternCode (pattern : Pattern) (node : Node) (place : Place) : Drafting (List Code) :=
  match pattern, node.kind with
  | .agent, .agent settings => b.agentCode node settings [] none
  | .orchestrator, .orchestrator settings => b.orchestratorCode build node settings place
  | .swarm, .swarm settings => b.swarmCode build node settings place
  | .container, .container settings => b.containerCode build node settings place
  | pattern, kind => failInternal (.wrongPattern pattern.name node.displayName kind.slug)

end Blueprint

end AgentWorkflow
