import AgentWorkflow.Text.Quoted

/-!
Where code stands in a generated program.
-/

namespace AgentWorkflow

/-- A place for code. -/
inductive Place where
  /-- At the level of the module, where no server is open. -/
  | topLevel
  /-- In the entry function, where the servers of the whole run are open. -/
  | root
  /-- In the function that wraps a node and is run on every call; `isOpen` tells whether the node's
  servers are open there. -/
  | wrapper (owner : String) (isOpen : Bool)
  deriving DecidableEq, Repr

namespace Place

def isScoped : Place → Bool
  | .topLevel => false
  | .root => true
  | .wrapper _ isOpen => isOpen

def isWrapper : Place → Bool
  | .wrapper .. => true
  | _ => false

def describe : Place → String
  | .topLevel => "TopLevel"
  | .root => "Root"
  | .wrapper owner isOpen =>
    "Wrapper \x7b owner: " ++ Text.quoted owner ++ ", scoped: " ++ toString isOpen ++ " \x7d"

end Place

end AgentWorkflow
