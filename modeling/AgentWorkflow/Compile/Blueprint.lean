import AgentWorkflow.Compile.Attachment
import AgentWorkflow.Tools.Closure

/-!
What is settled before a program is generated: the graph, the names of its nodes, its custom tools,
and the servers that its nodes need.
-/

namespace AgentWorkflow

/-- Kinds of nodes by the way they are composed. -/
inductive Pattern where
  | agent
  | orchestrator
  | swarm
  | container
  deriving DecidableEq, Repr

def Pattern.name : Pattern → String
  | .agent => "Agent"
  | .orchestrator => "Orchestrator"
  | .swarm => "Swarm"
  | .container => "Graph"

def NodeKind.pattern? : NodeKind → Option Pattern
  | .agent _ => some .agent
  | .orchestrator _ => some .orchestrator
  | .swarm _ => some .swarm
  | .container _ => some .container
  | _ => none

def NodeKind.instanceRole : NodeKind → NameRole
  | .swarm _ => .swarm
  | .container _ => .graph
  | _ => .agent

/-- What is settled before a program is generated. -/
structure Blueprint where
  index : Index
  symbols : SymbolTable
  toolbox : Toolbox
  closures : Closures

namespace Blueprint

variable (b : Blueprint)

def node (id : String) : Except CompileError Node :=
  match b.index.node? id with
  | some node => .ok node
  | none => .error (.internal (.unknownNode id))

def ident (id : String) : Except CompileError String :=
  match b.symbols.ident? id with
  | some ident => .ok ident
  | none => .error (.internal (.noIdentifier id))

def name (id : String) (role : NameRole) : Except CompileError String :=
  match b.symbols.name? id role with
  | some name => .ok name
  | none => .error (.internal (.noIdentifier id))

def instanceVariable (id : String) : Except CompileError String := do
  b.name id (← b.node id).kind.instanceRole

/-- The place for what something at a place depends on: the same place if servers are open there that
the dependency needs, and else the top level. -/
def dependencyPlace (id : String) (place : Place) : Place :=
  if place.isScoped && b.closures.needsScope id then place else .topLevel

/-- The place for the instance of a member of something at a place. In a wrapper every member is
built on each call. -/
def memberPlace (id : String) (place : Place) : Place :=
  if place.isWrapper then place else b.dependencyPlace id place

end Blueprint

end AgentWorkflow
