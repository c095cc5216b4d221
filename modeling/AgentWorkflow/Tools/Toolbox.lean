import AgentWorkflow.Entries
import AgentWorkflow.Graph.Basic
import AgentWorkflow.Tools.Builtin
import AgentWorkflow.Tools.CustomCode

/-!
The tools that a graph declares.

Each tool node is looked at once: the built-in tools for the symbols they mean, the custom tools for
the functions they define.
-/

namespace AgentWorkflow

/-- Something to be noted about a tool node. -/
inductive ToolNotice where
  | unknownBuiltin (requested name : String)
  /-- Two custom tools define the same function. -/
  | redefined (previous name function : String)
  | noFunction (name : String)
  deriving DecidableEq, Repr

def ToolNotice.message : ToolNotice → String
  | .unknownBuiltin requested name =>
    "Unknown built-in tool '" ++ requested ++ "' on '" ++ name ++ "'; using " ++ Builtin.fallback ++
      " instead"
  | .redefined previous name function =>
    "Custom tools '" ++ previous ++ "' and '" ++ name ++ "' both define '" ++ function ++
      "'; the later definition wins"
  | .noFunction name =>
    "Custom tool '" ++ name ++ "' defines no function; a placeholder was generated"

/-- The tool that a built-in tool node asks for: the one it names, or the one its label names. -/
def Node.requestedTool (n : Node) (s : BuiltinToolSettings) : String :=
  (Text.nonBlank? s.toolName).getD n.label

def Node.builtinSymbol (n : Node) (s : BuiltinToolSettings) : String :=
  (Builtin.symbol? (n.requestedTool s)).getD Builtin.fallback

/-- The custom tools of a graph by id. -/
structure Toolbox where
  custom : List (String × CustomCode)
  deriving DecidableEq, Repr

namespace Toolbox

def add (custom : List (String × CustomCode)) (n : Node) : List (String × CustomCode) :=
  match n.kind with
  | .customTool s => Entries.put n.id (CustomCode.scan s.code) custom
  | _ => custom

def ofNodes (nodes : List Node) : Toolbox :=
  ⟨nodes.foldl add []⟩

def get? (t : Toolbox) (id : String) : Option CustomCode :=
  Entries.get? id t.custom

def functions (t : Toolbox) : List String :=
  t.custom.filterMap fun (_, code) => code.function

/-- What is to be noted about nodes. The first list pairs the functions defined before with the names
of the nodes that define them, the latest first. -/
def noticesAfter (definers : List (String × String)) : List Node → List ToolNotice
  | [] => []
  | n :: rest =>
    match n.kind with
    | .builtinTool s =>
      let requested := n.requestedTool s
      (if (Builtin.symbol? requested).isNone then [.unknownBuiltin requested n.displayName] else []) ++
        noticesAfter definers rest
    | .customTool s =>
      match (CustomCode.scan s.code).function with
      | some function =>
        (Entries.get? function definers).toList.map (.redefined · n.displayName function) ++
          noticesAfter ((function, n.displayName) :: definers) rest
      | none => .noFunction n.displayName :: noticesAfter definers rest
    | _ => noticesAfter definers rest

/-- What is to be noted about the tool nodes among nodes. -/
def notices (nodes : List Node) : List ToolNotice :=
  noticesAfter [] nodes

/-- The names that the generated program binds itself. -/
def programNames : List String :=
  ["main", "prompt", "messages", "user_input", "history", "response", "result", "event", "query",
    "args", "parser", "last", "node", "node_id", "node_result", "argparse", "asyncio", "json", "os",
    "Agent", "tool", "Swarm", "GraphBuilder", "MCPClient"]

/-- The names that no node may have. -/
def reservedNames (t : Toolbox) : List String :=
  programNames ++ Builtin.symbols ++ t.functions

end Toolbox

end AgentWorkflow
