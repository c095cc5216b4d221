import AgentWorkflow.Compile.Place
import AgentWorkflow.Graph.Basic
import AgentWorkflow.Tools.Server

/-!
What can stop the generation of a program.
-/

namespace AgentWorkflow

/-- Why a node cannot be composed from its members. -/
inductive CompositionFault where
  | emptySwarm
  | emptyContainer
  /-- A member of a swarm that is neither an agent nor an orchestrator. -/
  | swarmMember (name slug : String)
  deriving DecidableEq, Repr

def CompositionFault.message : CompositionFault → String
  | .emptySwarm => "a swarm needs at least one member agent"
  | .emptyContainer => "a graph needs at least one member"
  | .swarmMember name slug =>
    "'" ++ name ++ "' is a " ++ slug ++ "; swarm members must be agents or orchestrators"

/-- A failure of the generation itself, or one that an expander of the caller's reports. -/
inductive InternalFault where
  | unknownNode (id : String)
  | noIdentifier (id : String)
  | noServerIdentifier (id : String)
  | notExecutable (name : String)
  | notServer (name : String)
  | unknownCustomTool (id : String)
  /-- The expander of one pattern was given a node of another. -/
  | wrongPattern (pattern name slug : String)
  | noExecutable
  | noTopLevel
  /-- Fragments were left where the program has no place for them. -/
  | leftover (place : Place)
  | crashed
  | reported (message : String)
  deriving DecidableEq, Repr

def InternalFault.message : InternalFault → String
  | .unknownNode id => "unknown node '" ++ id ++ "'"
  | .noIdentifier id => "no identifier for '" ++ id ++ "'"
  | .noServerIdentifier id => "no identifier for server '" ++ id ++ "'"
  | .notExecutable name => "'" ++ name ++ "' is not executable"
  | .notServer name => "'" ++ name ++ "' is not a tool server"
  | .unknownCustomTool id => "unknown custom tool '" ++ id ++ "'"
  | .wrongPattern pattern name slug =>
    pattern ++ " expander received '" ++ name ++ "', a " ++ slug
  | .noExecutable => "workflow has no executable node"
  | .noTopLevel => "workflow has no top-level executable"
  | .leftover place => "fragments left outside their scope at " ++ place.describe
  | .crashed => "unexpected failure while expanding the workflow"
  | .reported message => message

/-- What stops the generation of a program from a valid graph. -/
inductive CompileError where
  /-- A tool that is attached does not exist. -/
  | missingTool (consumer missing : String)
  | badServer (server : String) (fault : ServerFault)
  | badComposition (node : String) (fault : CompositionFault)
  | internal (fault : InternalFault)
  deriving DecidableEq, Repr

def CompileError.message : CompileError → String
  | .missingTool consumer missing =>
    "Tool '" ++ missing ++ "' attached to '" ++ consumer ++ "' no longer exists in the workflow"
  | .badServer server fault =>
    "Tool server '" ++ server ++ "' is misconfigured: " ++ fault.message
  | .badComposition node fault =>
    "'" ++ node ++ "' cannot be composed this way: " ++ fault.message
  | .internal fault => "Code generation failed: " ++ fault.message

end AgentWorkflow
