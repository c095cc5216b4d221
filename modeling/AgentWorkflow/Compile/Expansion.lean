import AgentWorkflow.Compile.Dialogue

/-!
Expanding a node into the code that constructs its instance.

An expansion demands other parts, whose expansions demand others again. On a graph without circular
membership the standard expanders come to an end within as many nested expansions as there are nodes;
an expander that goes on beyond all bounds crashes.
-/

namespace AgentWorkflow.Blueprint

open Drafting

variable (b : Blueprint)

def answer (build : Build) : (request : Request) → Drafting request.Answer
  | .node id => ofExcept (b.node id)
  | .name id role => ofExcept (b.name id role)
  | .ident id => ofExcept (b.ident id)
  | .instanceVariable id => ofExcept (b.instanceVariable id)
  | .dependencyPlace id place => return b.dependencyPlace id place
  | .memberPlace id place => return b.memberPlace id place
  | .emit place fragment => emit place fragment
  | .take place => take place
  | .code id place => build id place
  | .declareInstance id place => b.declareInstance build id place
  | .declareWrapper id place => b.declareWrapper build id place
  | .declareClients ids => b.declareClients ids
  | .declareCustomTool id => b.declareCustomTool id
  | .declareTools id => b.declareTools id
  | .imports => return (← get).imports
  | .use feature => use [feature]
  | .warn message => warn message
  | .report message => report message
  | .note text => note text
  | .agent node settings delegates coordination =>
    b.agentCode node settings delegates coordination
  | .dependencyGraph builder name members limits place =>
    b.dependencyGraph build builder name members limits place
  | .pattern pattern node place => b.patternCode build pattern node place

def converse (build : Build) : Dialogue → Drafting (List Code)
  | .done code => return code
  | .fail e => fail e
  | .crash => throw .crash
  | .ask request proceed => do
    converse build (proceed (← attempt (b.answer build request)))

/-- The code that constructs the instance of a node, from the expander of its pattern. -/
def expand (expanders : Expanders) (build : Build) (id : String) (place : Place) :
    Drafting (List Code) := do
  let node ← ofExcept (b.node id)
  match node.kind.pattern? with
  | none => failInternal (.notExecutable node.displayName)
  | some pattern =>
    match expanders pattern with
    | .standard => b.patternCode build pattern node place
    | .custom dialogue => b.converse build (dialogue node place)

/-- Expansion with a bound on how deep it nests. -/
def expandWithin (expanders : Expanders) : Nat → Build
  | 0 => fun _ _ => throw .crash
  | depth + 1 => b.expand expanders (expandWithin expanders depth)

/-- A bound on how deep expansions nest: more than there are parts at places. -/
def depth : Nat :=
  let n := b.index.graph.nodes.length + 2
  16 * n * n

/-- The code that constructs the instance of a node at a place. -/
def code (expanders : Expanders) : Build :=
  b.expandWithin expanders b.depth

end AgentWorkflow.Blueprint
