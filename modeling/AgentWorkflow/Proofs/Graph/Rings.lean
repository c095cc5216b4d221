import AgentWorkflow.Graph.Digraph
import Mathlib

/-!
Rings in a directed graph.

The path of a search is a walk without repetition. Main statement: an arc from its end back into it closes a ring.
-/

namespace AgentWorkflow.Digraph

open Relation

variable {g : Digraph}

/-- An arc leads from one vertex to another. -/
def Leads (g : Digraph) (v w : String) : Prop :=
  (v, w) ∈ g

theorem mem_successors {v w : String} : w ∈ g.successors v ↔ g.Leads v w := by
  simp [successors, Leads]

/-- One step of a search: what is made of an arc at the end of a path. -/
def visit (g : Digraph) (fuel : ℕ) (path : List String) (s : Search) (w : String) : Search :=
  if s.done.contains w then s
  else if path.contains w then s.report (ring path w)
  else explore g fuel path w s

theorem explore_succ (fuel : ℕ) (path : List String) (v : String) (s : Search) :
    explore g (fuel + 1) path v s =
      let s' := (g.successors v).foldl (g.visit fuel (v :: path)) s
      { s' with done := v :: s'.done } := rfl

variable {path ring : List String} {v w : String}

/-- A ring: different vertices, each of which leads to the next one and the last to the first. -/
structure IsRing (g : Digraph) (ring : List String) : Prop where
  ne_nil : ring ≠ []
  nodup : ring.Nodup
  leads : (ring ++ ring.take 1).IsChain g.Leads

theorem takeWhile_ne_prefix (hv : v ∈ path) : path.takeWhile (· ≠ v) ++ [v] <+: path := by
  induction path with
  | nil => cases hv
  | cons u rest ih =>
    by_cases hu : u = v
    · simp [hu]
    · simpa [hu] using ih ((List.mem_cons.mp hv).resolve_left (Ne.symm hu))

/-- The path of a search has its last vertex first: each vertex is led to by the one after it. -/
structure IsPath (g : Digraph) (path : List String) : Prop where
  nodup : path.Nodup
  leads : path.IsChain fun a b => g.Leads b a

theorem IsPath.singleton (v : String) : g.IsPath [v] :=
  ⟨List.nodup_singleton v, List.isChain_singleton v⟩

theorem IsPath.cons (h : g.IsPath (v :: path)) (hw : w ∉ v :: path) (hvw : g.Leads v w) :
    g.IsPath (w :: v :: path) :=
  ⟨List.nodup_cons.mpr ⟨hw, h.nodup⟩, List.isChain_cons_cons.mpr ⟨hvw, h.leads⟩⟩

theorem IsPath.isRing (h : g.IsPath (v :: path)) (hw : w ∈ v :: path) (hvw : g.Leads v w) :
    g.IsRing (Digraph.ring (v :: path) w) := by
  have hpre : (v :: path).takeWhile (· ≠ w) ++ [w] <+: v :: path := takeWhile_ne_prefix hw
  refine ⟨List.cons_ne_nil _ _, ?_, ?_⟩
  · have hn := h.nodup.sublist hpre.sublist
    rw [Digraph.ring, ← List.reverse_concat, List.nodup_reverse]
    simpa using hn
  · have hc : (w :: v :: path).IsChain fun a b => g.Leads b a := List.isChain_cons_cons.mpr ⟨hvw, h.leads⟩
    have hcut := hc.prefix (List.cons_prefix_cons.mpr ⟨rfl, hpre⟩)
    simpa [Digraph.ring] using List.isChain_reverse.mpr hcut

/-- All that a search has reported are rings. -/
def Search.IsSound (g : Digraph) (s : Search) : Prop :=
  ∀ ring ∈ s.rings, g.IsRing ring

end AgentWorkflow.Digraph
