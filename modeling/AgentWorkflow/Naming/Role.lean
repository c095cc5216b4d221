/-!
The roles that names of a generated program play.
-/

namespace AgentWorkflow

/-- The role of a name. Each has a suffix of its own. -/
inductive NameRole where
  | agent
  | model
  | tool
  | client
  | swarm
  | graph
  | builder
  deriving DecidableEq, Repr

namespace NameRole

def all : List NameRole := [.agent, .model, .tool, .client, .swarm, .graph, .builder]

def suffix : NameRole → String
  | .agent => "_agent"
  | .model => "_model"
  | .tool => "_tool"
  | .client => "_client"
  | .swarm => "_swarm"
  | .graph => "_graph"
  | .builder => "_builder"

end NameRole

end AgentWorkflow
