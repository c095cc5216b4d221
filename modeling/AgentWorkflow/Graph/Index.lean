import AgentWorkflow.Graph.Role

/-!
Looking up what a graph links.

An index holds a graph and its links, the edges that have a role. Every list that it answers with is in
the order in which the edges are declared, and without repetition.
-/

namespace AgentWorkflow

/-- The elements of a list without repetition, each at its first place. -/
def distinct {α : Type} [DecidableEq α] : List α → List α
  | [] => []
  | a :: rest => a :: (distinct rest).filter (· ≠ a)

structure Link where
  source : String
  target : String
  role : EdgeRole
  deriving DecidableEq, Repr

/-- The link of an edge, if it has a role. -/
def Graph.link? (g : Graph) (e : Edge) : Option Link :=
  (g.verdict e).role?.map fun role => ⟨e.source, e.target, role⟩

def Graph.links (g : Graph) : List Link :=
  g.edges.filterMap g.link?

structure Index where
  graph : Graph
  links : List Link

def Graph.index (g : Graph) : Index where
  graph := g
  links := g.links

namespace Index

variable (ix : Index)

/-- Where links of a role lead from a node. -/
def targets (role : EdgeRole) (id : String) : List String :=
  distinct ((ix.links.filter fun l => l.role = role ∧ l.source = id).map Link.target)

/-- Where links of a role to a node come from. -/
def sources (role : EdgeRole) (id : String) : List String :=
  distinct ((ix.links.filter fun l => l.role = role ∧ l.target = id).map Link.source)

def dataSuccessors (id : String) : List String := ix.targets .dataFlow id

def dataPredecessors (id : String) : List String := ix.sources .dataFlow id

def inputFeeds (id : String) : List String := ix.sources .inputFeed id

/-- The tools attached to a node, also those that do not exist any more. -/
def tools (id : String) : List String := ix.sources .toolAttachment id

def members (id : String) : List String := ix.targets .membership id

def parents (id : String) : List String := ix.sources .membership id

def isMember (id : String) : Bool := !(ix.parents id).isEmpty

def isFed (id : String) : Bool := !(ix.inputFeeds id).isEmpty

def node? (id : String) : Option Node := ix.graph.node? id

def nameOf (id : String) : String := ix.graph.nameOf id

def executables : List String := ix.graph.executables.map Node.id

/-- The ids of the executables that are no members. -/
def topLevel : List String := ix.executables.filter fun id => !ix.isMember id

/-- Whether both ends of an edge exist. -/
def isAnchored (e : Edge) : Bool :=
  (ix.node? e.source).isSome && (ix.node? e.target).isSome

/-- The number of edges that leave a node for an existing one, with or without a role. -/
def outgoingCount (id : String) : Nat :=
  ix.graph.edges.countP fun e => ix.isAnchored e && e.source == id

/-- The number of edges that reach a node from an existing one, with or without a role. -/
def incomingCount (id : String) : Nat :=
  ix.graph.edges.countP fun e => ix.isAnchored e && e.target == id

/-- The edges with a verdict of some sort, with their places in the order of declaration. -/
def rejected (sort : Verdict → Bool) : List (Nat × Edge × String) :=
  ix.graph.edges.zipIdx.filterMap fun (e, i) =>
    let verdict := ix.graph.verdict e
    if sort verdict then verdict.reason?.map fun reason => (i, e, reason) else none

def illTyped : List (Nat × Edge × String) := ix.rejected Verdict.isIllTyped

def dangling : List (Nat × Edge × String) := ix.rejected Verdict.isDangling

end Index

end AgentWorkflow
