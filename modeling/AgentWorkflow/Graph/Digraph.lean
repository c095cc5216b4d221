import AgentWorkflow.Graph.Index

/-!
Directed graphs given by their arcs: cycles and reachability.

`cycles` searches depth first. An arc that leads back into the path searched closes a ring, which is
reported once whatever its starting point.
-/

namespace AgentWorkflow

/-- A directed graph: its arcs, each from its first end to its second. -/
abbrev Digraph := List (String × String)

namespace Digraph

/-- The ends of the arcs that start at a vertex, in order, repetitions included. -/
def successors (g : Digraph) (v : String) : List String :=
  g.filterMap fun (a, b) => if a = v then some b else none

def least : String → List String → String
  | a, [] => a
  | a, b :: rest => least (if b < a then b else a) rest

/-- A ring turned so that its least vertex comes first. -/
def turned : List String → List String
  | [] => []
  | a :: rest =>
    let first := least a rest
    (a :: rest).dropWhile (· ≠ first) ++ (a :: rest).takeWhile (· ≠ first)

/-- A search: the vertices that are finished, and the rings found. -/
structure Search where
  done : List String
  rings : List (List String)

/-- The ring that an arc closes, from the last vertex of a path back to an earlier one. The path has its
last vertex first. -/
def ring (path : List String) (v : String) : List String :=
  v :: (path.takeWhile (· ≠ v)).reverse

/-- Adds a ring, unless it is there with another starting point. -/
def Search.report (s : Search) (ring : List String) : Search :=
  if s.rings.any fun r => turned r = turned ring then s else { s with rings := s.rings ++ [ring] }

/-- Searches from a vertex at the end of a path. The fuel bounds the length of the path. -/
def explore (g : Digraph) : Nat → List String → String → Search → Search
  | 0, _, _, s => s
  | fuel + 1, path, v, s =>
    let path := v :: path
    let s := (g.successors v).foldl (fun s w =>
      if s.done.contains w then s
      else if path.contains w then s.report (ring path w)
      else explore g fuel path w s) s
    { s with done := v :: s.done }

def search (g : Digraph) (vertices : List String) : Search :=
  vertices.foldl (fun s v =>
    if s.done.contains v then s else explore g (vertices.length + g.length + 1) [] v s) ⟨[], []⟩

/-- The cycles found from a list of vertices, each closed by its first vertex. -/
def cycles (g : Digraph) (vertices : List String) : List (List String) :=
  (g.search vertices).rings.map fun ring => ring ++ ring.take 1

/-- Spreads from waiting vertices to all they lead to. The fuel bounds the number of vertices. -/
def spread (g : Digraph) : Nat → List String → List String → List String
  | 0, visited, _ => visited
  | _, visited, [] => visited
  | fuel + 1, visited, v :: waiting =>
    let fresh := distinct ((g.successors v).filter fun w => !visited.contains w)
    spread g fuel (visited ++ fresh) (waiting ++ fresh)

/-- The vertices that can be reached from some vertices, these included. -/
def reachable (g : Digraph) (seeds : List String) : List String :=
  let seeds := distinct seeds
  g.spread (seeds.length + g.length + 1) seeds seeds

end Digraph

/-- The arcs of the links of a role. -/
def Index.arcs (ix : Index) (role : EdgeRole) : Digraph :=
  (ix.links.filter (·.role = role)).map fun l => (l.source, l.target)

end AgentWorkflow
