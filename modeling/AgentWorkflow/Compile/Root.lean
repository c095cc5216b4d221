import AgentWorkflow.Compile.Options
import AgentWorkflow.Graph.Index

/-!
Which node a program runs.

The program runs one node unless nodes at the top level pass data to each other. That node is at the
top level: one that an input feeds, or one that contains a node that an input feeds.
-/

namespace AgentWorkflow.Index

variable (ix : Index)

/-- Whether two executables at the top level are connected by data flow. -/
def isChained : Bool :=
  ix.topLevel.any fun id => (ix.dataSuccessors id).any fun next => !ix.isMember next

/-- The mode that a requested mode means for the graph. -/
def effectiveMode : Mode → Mode
  | .auto => if ix.isChained then .graph else .linear
  | mode => mode

/-- Searches upwards, from the first waiting node on, for a node that is no member. The fuel bounds the
number of nodes looked at. -/
def outermostFrom? : Nat → List String → List String → Option String
  | 0, _, _ => none
  | _, _, [] => none
  | fuel + 1, seen, id :: waiting =>
    if seen.contains id then outermostFrom? fuel seen waiting
    else if ix.isMember id then outermostFrom? fuel (id :: seen) (ix.parents id ++ waiting)
    else some id

/-- The composition at the top level that contains a member, by way of first parents where it can. -/
def outermost? (id : String) : Option String :=
  ix.outermostFrom? (2 * ix.links.length + 1) [] (ix.parents id)

/-- The node that a program runs: the first at the top level that an input feeds; else the one at the
top level that contains the first fed member; else the first at the top level; else the first of all. -/
def root? : Option String :=
  ix.topLevel.find? ix.isFed <|>
    (ix.executables.filter ix.isFed).findSome? ix.outermost? <|>
    ix.topLevel.head? <|>
    ix.executables.head?

/-- The executables that have a node for their composition at the top level. -/
def composedBy (root : String) : List String :=
  ix.executables.filter fun id => ix.outermost? id == some root

def defaultContent? (id : String) : Option String := do
  match (← ix.node? id).kind with
  | .input s => s.defaultContent.bind Text.trimmed?
  | _ => none

/-- The prompt that the inputs of some nodes supply. -/
def suppliedPrompt? (ids : List String) : Option String :=
  (ids.flatMap ix.inputFeeds).findSome? ix.defaultContent?

end AgentWorkflow.Index
