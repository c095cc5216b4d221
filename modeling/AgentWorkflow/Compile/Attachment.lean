import AgentWorkflow.Compile.Error
import AgentWorkflow.Graph.Index
import AgentWorkflow.Naming.SymbolTable
import AgentWorkflow.Tools.Toolbox

/-!
The tools attached to an executable, as its program uses them.
-/

namespace AgentWorkflow

inductive Attachment where
  | builtin (symbol : String)
  | custom (id : String)
  /-- A tool server and the name of its client. -/
  | server (id client : String)
  deriving DecidableEq, Repr

namespace Attachment

/-- Whether the tool is a server, whose tools are listed when the program runs. -/
def isServer : Attachment → Bool
  | .server .. => true
  | _ => false

end Attachment

namespace Index

variable (ix : Index) (symbols : SymbolTable)

/-- The tool that is attached to a node; nothing for a node that is no tool. -/
def attachment? (consumer tool : String) : Except CompileError (Option Attachment) :=
  match ix.node? tool with
  | none => .error (.missingTool (ix.nameOf consumer) tool)
  | some node =>
    match node.kind with
    | .builtinTool s => .ok (some (.builtin (node.builtinSymbol s)))
    | .customTool _ => .ok (some (.custom tool))
    | .server _ =>
      match symbols.name? tool .client with
      | some client => .ok (some (.server tool client))
      | none => .error (.internal (.noServerIdentifier tool))
    | _ => .ok none

/-- The tools attached to a node, in the order of attachment and each once. -/
def attachments (consumer : String) : Except CompileError (List Attachment) := do
  let found ← (ix.tools consumer).mapM (ix.attachment? symbols consumer)
  return distinct (found.filterMap id)

end Index

end AgentWorkflow
