import AgentWorkflow.Entries
import AgentWorkflow.Graph.Index

/-!
The tool servers that must be open while a node runs: those attached to the node, and those that its
members need, in the order of first use.
-/

namespace AgentWorkflow

structure Closures where
  entries : List (String × List String)
  deriving DecidableEq, Repr

namespace Index

variable (ix : Index)

def isServer (id : String) : Bool :=
  (ix.node? id).any (·.kind.isServer)

def ownServers (id : String) : List String :=
  (ix.tools id).filter ix.isServer

/-- The servers that a node needs, with those of all nodes found on the way. Nothing is added for a
node that is being looked at already. The fuel bounds how many are. -/
def needed : Nat → List String → String → Closures → List String × Closures
  | 0, _, _, found => ([], found)
  | fuel + 1, visiting, id, found =>
    match Entries.get? id found.entries with
    | some servers => (servers, found)
    | none =>
      if visiting.contains id then ([], found)
      else
        let (servers, found) := (ix.members id).foldl (fun (servers, found) member =>
          let (more, found) := needed fuel (id :: visiting) member found
          (distinct (servers ++ more), found)) (ix.ownServers id, found)
        (servers, ⟨Entries.put id servers found.entries⟩)

/-- The servers that each executable needs. -/
def closures : Closures :=
  ix.executables.foldl (fun found id => (ix.needed (ix.links.length + 2) [] id found).2) ⟨[]⟩

end Index

namespace Closures

def get? (c : Closures) (id : String) : Option (List String) :=
  Entries.get? id c.entries

/-- The servers that a node needs; none unless it is an executable. -/
def servers (c : Closures) (id : String) : List String :=
  (c.get? id).getD []

/-- Whether a node needs any server to be open. -/
def needsScope (c : Closures) (id : String) : Bool :=
  !(c.servers id).isEmpty

def union (c : Closures) (ids : List String) : List String :=
  distinct (ids.flatMap c.servers)

end Closures

end AgentWorkflow
