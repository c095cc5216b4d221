import AgentWorkflow.Compile.Composition

/-!
Expanders of the caller's own.

An expander constructs the instances of the nodes of one pattern. One of the caller's own is a dialogue
with the generation: a series of requests, each depending on the answers before, that ends with code,
with an error, or with a crash. A failed request is answered with its error, and the dialogue decides
how to go on.
-/

namespace AgentWorkflow

/-- What an expander can ask for. -/
inductive Request where
  | node (id : String)
  | name (id : String) (role : NameRole)
  | ident (id : String)
  | instanceVariable (id : String)
  | dependencyPlace (id : String) (place : Place)
  | memberPlace (id : String) (place : Place)
  | emit (place : Place) (fragment : Fragment)
  | take (place : Place)
  | code (id : String) (place : Place)
  | declareInstance (id : String) (place : Place)
  | declareWrapper (id : String) (place : Place)
  | declareClients (ids : List String)
  | declareCustomTool (id : String)
  | declareTools (id : String)
  | imports
  | use (feature : Feature)
  | warn (message : String)
  | report (message : String)
  | note (text : String)
  | agent (node : Node) (settings : AgentSettings) (delegates : List String)
      (coordination : Option String)
  | dependencyGraph (builder name : String) (members : List String) (limits : List Limit)
      (place : Place)
  | pattern (pattern : Pattern) (node : Node) (place : Place)

/-- What a request is answered with. -/
abbrev Request.Answer : Request → Type
  | .node _ => Node
  | .name .. | .ident _ | .instanceVariable _ => String
  | .dependencyPlace .. | .memberPlace .. => Place
  | .emit .. | .use _ | .warn _ | .report _ | .note _ => Unit
  | .take _ => List Fragment
  | .code .. | .agent .. | .dependencyGraph .. | .pattern .. => List Code
  | .declareInstance .. | .declareWrapper .. | .declareCustomTool _ => String
  | .declareClients _ => List String
  | .declareTools _ => List (Attachment × ToolEntry)
  | .imports => Imports

/-- A dialogue of an expander with the generation. -/
inductive Dialogue where
  | done (code : List Code)
  | fail (e : CompileError)
  | crash
  | ask (request : Request) (proceed : Except CompileError request.Answer → Dialogue)

/-- What constructs the instances of the nodes of a pattern. -/
inductive Expander where
  | standard
  | custom (expand : Node → Place → Dialogue)

/-- An expander for each pattern. -/
abbrev Expanders := Pattern → Expander

namespace Expanders

def standard : Expanders := fun _ => .standard

def set (expanders : Expanders) (pattern : Pattern) (expander : Expander) : Expanders :=
  fun p => if p = pattern then expander else expanders p

end Expanders

end AgentWorkflow
