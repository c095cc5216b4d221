import AgentWorkflow.Compile.Blueprint
import AgentWorkflow.Compile.Draft

/-!
Declaring parts of nodes on demand.

Whoever uses a part of a node demands it at a place and gets its name. The first demand makes the
fragment that declares the part, after everything that the part depends on, so the fragments at a place
are in the order of dependency.
-/

namespace AgentWorkflow

/-- A way to make the code that constructs a node's instance at a place. -/
abbrev Build := String → Place → Drafting (List Code)

def NodeKind.execution (kind : NodeKind) : Execution :=
  match kind with
  | .swarm _ => .swarm
  | .container _ => .graph
  | _ => if kind.agent?.any (·.streaming) then .streaming else .blocking

def NodeKind.instanceFragment : NodeKind → FragmentKind
  | .agent _ => .agent
  | _ => .composition

/-- What the settings of an executable say about its purpose. -/
def NodeKind.description? : NodeKind → Option String
  | .agent s => s.description
  | .orchestrator s => s.agent.description
  | .swarm s => s.description
  | .container s => s.description
  | _ => none

namespace Blueprint

open Drafting

variable (b : Blueprint)

def declareInstance (build : Build) (id : String) (place : Place) : Drafting String := do
  let name ← ofExcept (b.instanceVariable id)
  once ⟨id, place, .construction⟩ do
    let code ← build id place
    let node ← ofExcept (b.node id)
    return ⟨node.kind.instanceFragment, some id, code⟩
  return name

/-- Declares the client of a tool server and gives its variable. Clients are declared at the top
level. -/
def declareClient (id : String) : Drafting String := do
  let name ← ofExcept (b.name id .client)
  once ⟨id, .topLevel, .client⟩ do
    let node ← ofExcept (b.node id)
    match node.kind with
    | .server settings =>
      match settings.fault? with
      | some fault => fail (.badServer node.displayName fault)
      | none =>
        let code := [Code.client name settings]
        use (code.flatMap Code.features)
        return ⟨.client, some id, code⟩
    | _ => failInternal (.notServer node.displayName)
  return name

def declareClients (ids : List String) : Drafting (List String) :=
  ids.mapM b.declareClient

def placeholderText (node : Node) : String :=
  let described : Option String := match node.kind with
    | .customTool s => s.description
    | _ => none
  (described.bind Text.trimmed?).getD ("Custom tool " ++ node.displayName ++ ".")

/-- A function that stands in for a custom tool whose code defines none. The code is kept in it as a
comment. -/
def placeholder (node : Node) (function code : String) : Code :=
  .toolFunction function (placeholderText node)
    ((Text.nonBlank? code).toList.map (fun c => .plain (.comment c)) ++
      [.line ("return " ++ Literal.line (node.displayName ++ " has no implementation yet."))])

/-- The function of a custom tool: the one that its code defines, or a placeholder. -/
def toolFunction (id : String) (custom : CustomCode) : Except CompileError String :=
  match custom.function with
  | some function => .ok function
  | none => b.name id .tool

def customToolCode (id function : String) (custom : CustomCode) : Except CompileError (List Code) :=
  match custom.function with
  | some _ =>
    .ok (.definition function custom.code ::
      if custom.decorated then [] else [.decorate function])
  | none => do return [placeholder (← b.node id) function custom.code]

/-- Declares a custom tool and gives its function. Custom tools are declared at the top level. -/
def declareCustomTool (id : String) : Drafting String := do
  match b.toolbox.get? id with
  | none => failInternal (.unknownCustomTool id)
  | some custom =>
    let function ← ofExcept (b.toolFunction id custom)
    once ⟨id, .topLevel, .customTool⟩ do
      use [.tool]
      return ⟨.customTool, some id, ← ofExcept (b.customToolCode id function custom)⟩
    return function

/-- Declares an attached tool and gives its entry in the list of tools. -/
def declareTool : Attachment → Drafting ToolEntry
  | .builtin symbol => do
    use [.builtin symbol]
    return .symbol symbol
  | .custom id => return .function (← b.declareCustomTool id)
  | .server id _ => return .listed (← b.declareClient id)

/-- The tools attached to a node, the servers last. -/
def toolbelt (id : String) : Except CompileError (List Attachment) := do
  let (functions, servers) := (← b.index.attachments b.symbols id).partition fun a => !a.isServer
  return functions ++ servers

def declareTools (id : String) : Drafting (List (Attachment × ToolEntry)) := do
  (← ofExcept (b.toolbelt id)).mapM fun a => return (a, ← b.declareTool a)

/-- The text that documents the function that wraps a node. -/
def wrapperText (node : Node) : String :=
  (node.kind.description?.bind Text.trimmed?).getD
    ("Delegate a task to " ++ node.displayName ++ ".")

/-- The function that wraps a node, at a place. The node and its members are built inside it, so calls
share nothing; the servers that they need are opened inside it unless they are open at the place. -/
def wrapperCode (build : Build) (id : String) (place : Place) : Drafting Code := do
  let node ← ofExcept (b.node id)
  let name ← ofExcept (b.name id .tool)
  let needsScope := b.closures.needsScope id
  let inner := Place.wrapper id (place.isScoped || needsScope)
  let own ← build id inner
  let inside := Fragment.layout (← take inner)
  let var ← ofExcept (b.instanceVariable id)
  let work := Fragment.joinBlank inside (own ++ [.answer node.kind.execution var])
  if !place.isScoped && needsScope then
    let clients ← b.declareClients (b.closures.servers id)
    return .toolFunction name (wrapperText node) [.withClients clients work]
  else
    return .toolFunction name (wrapperText node) work

def declareWrapper (build : Build) (id : String) (place : Place) : Drafting String := do
  let name ← ofExcept (b.name id .tool)
  once ⟨id, place, .wrapper⟩ do
    let code ← b.wrapperCode build id place
    use [.tool]
    return ⟨.wrapper, some id, [code]⟩
  return name

end Blueprint

end AgentWorkflow
