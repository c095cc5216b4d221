import AgentWorkflow.Proofs.Graph.Adjacency
import AgentWorkflow.Proofs.Tools.Closure

/-!
The order of the servers that a node needs.

A depth-first visit comes to a node before its members, and to a node again for each composition that has it. Main
statement: when no node is below itself, the closure of an executable lists the servers of the visit from it in the
order of their first use, although closures that were found before are taken as they are.
-/

namespace AgentWorkflow

open Relation

/-- Some elements are those of a list, each once, in the order in which they come first. -/
structure FirstUses (uses elements : List String) : Prop where
  nodup : elements.Nodup
  mem : ∀ s, s ∈ elements ↔ s ∈ uses
  ordered : elements.Pairwise fun s t => uses.idxOf s < uses.idxOf t

theorem firstUses_distinct (uses : List String) : FirstUses uses (distinct uses) where
  nodup := distinct_nodup uses
  mem _ := mem_distinct
  ordered := by
    have h := distinct_filterMap_pairwise some uses
    rw [List.filterMap_some] at h
    refine h.imp fun hlt => ?_
    simpa only [List.idxOf, Option.some.injEq, Bool.beq_eq_decide_eq] using hlt

namespace Index

/-- A depth-first visit from some nodes: it comes to a node, to the members below it, and then to the other nodes. -/
inductive Visits (ix : Index) : List String → List String → Prop
  | nil : Visits ix [] []
  | cons {id : String} {rest below after : List String} (hbelow : Visits ix (ix.members id) below)
      (hafter : Visits ix rest after) : Visits ix (id :: rest) (id :: below ++ after)

variable {ix : Index} {ids ids' visit visit' : List String} {id : String}

namespace Visits

theorem append (h : ix.Visits ids visit) (h' : ix.Visits ids' visit') : ix.Visits (ids ++ ids') (visit ++ visit') := by
  induction h with
  | nil => exact h'
  | cons hbelow _ _ ih =>
    rw [List.append_assoc]
    exact hbelow.cons ih

theorem eq (h : ix.Visits ids visit) (h' : ix.Visits ids visit') : visit = visit' := by
  induction h generalizing visit' with
  | nil =>
    cases h'
    rfl
  | cons _ _ ihbelow ihafter =>
    cases h' with
    | cons hbelow hafter => rw [ihbelow hbelow, ihafter hafter]

theorem mem_iff (h : ix.Visits ids visit) {x : String} :
    x ∈ visit ↔ ∃ id ∈ ids, ReflTransGen ix.HasMember id x := by
  induction h with
  | nil => simp
  | @cons id rest below after _ _ ihbelow ihafter =>
    have hhead : ReflTransGen ix.HasMember id x ↔ x = id ∨ x ∈ below := by
      rw [ihbelow]
      exact ReflTransGen.cases_head_iff.trans (or_congr eq_comm Iff.rfl)
    rw [List.exists_mem_cons_iff, hhead, ← ihafter, List.cons_append, List.mem_cons, List.mem_append, or_assoc]

end Visits

/-- A list holds the servers of the visit from a node, each at its first use. -/
def IsFirstUse (ix : Index) (id : String) (servers : List String) : Prop :=
  ∃ visit, ix.Visits [id] visit ∧ servers = distinct (visit.flatMap ix.ownServers)

theorem exists_visits {lists : List (List String)} (h : List.Forall₂ ix.IsFirstUse ids lists) :
    ∃ visit, ix.Visits ids visit ∧ distinct lists.flatten = distinct (visit.flatMap ix.ownServers) := by
  induction h with
  | nil => exact ⟨[], .nil, rfl⟩
  | @cons id servers rest lists hfirst _ ih =>
    obtain ⟨first, hv, rfl⟩ := hfirst
    obtain ⟨after, hafter, he⟩ := ih
    refine ⟨first ++ after, hv.append hafter, ?_⟩
    calc distinct (distinct (first.flatMap ix.ownServers) ++ lists.flatten)
        = distinct (first.flatMap ix.ownServers ++ distinct lists.flatten) := by
          rw [distinct_distinct_append, distinct_append_distinct]
      _ = distinct ((first ++ after).flatMap ix.ownServers) := by
          rw [he, distinct_append_distinct, List.flatMap_append]

theorem isFirstUse_passes : ix.Passes ix.IsFirstUse := by
  intro id lists h
  obtain ⟨below, hbelow, he⟩ := exists_visits h
  refine ⟨id :: below ++ [], hbelow.cons .nil, ?_⟩
  rw [List.append_nil, List.flatMap_cons, ← distinct_append_distinct, he, distinct_append_distinct]

/-- When no node is below itself, the closure of an executable lists the servers attached to the node and to those
below it, by their first use in the one visit from the node; and the union of closures lists theirs, by their first
use when they follow each other. -/
theorem closures_firstUse {g : Graph} (hac : g.index.IsAcyclic) :
    (∀ id ∈ g.index.executables, ∃ visit servers, (∀ visit', g.index.Visits [id] visit' ↔ visit' = visit) ∧
      g.index.closures.get? id = some servers ∧ FirstUses (visit.flatMap g.index.ownServers) servers ∧
      ∀ s, s ∈ servers ↔ ∃ x, ReflTransGen (g.Connects .membership) id x ∧ g.Connects .toolAttachment s x ∧
        ∃ n settings, g.node? s = some n ∧ n.kind = .server settings) ∧
    ∀ ids, FirstUses (ids.flatMap g.index.closures.servers) (g.index.closures.union ids) := by
  refine ⟨fun id hid => ?_, fun ids => firstUses_distinct _⟩
  obtain ⟨hget, visit, hvisit, hservers⟩ := servers_of_passes hac isFirstUse_passes hid
  have hfirst : FirstUses (visit.flatMap g.index.ownServers) (g.index.closures.servers id) := by
    rw [hservers]
    exact firstUses_distinct _
  refine ⟨visit, _, fun visit' => ⟨fun h => h.eq hvisit, fun h => h ▸ hvisit⟩, hget, hfirst, fun s => ?_⟩
  have hmember : g.index.HasMember = g.Connects .membership := by
    funext x m
    exact propext mem_members_iff_edge
  rw [hfirst.mem, List.mem_flatMap]
  refine exists_congr fun x => and_congr ?_ ?_
  · rw [hvisit.mem_iff, hmember]
    simp only [List.mem_singleton, exists_eq_left]
  · rw [ownServers, List.mem_filter, mem_tools_iff_edge]
    refine and_congr Iff.rfl ?_
    rw [isServer, Option.any_eq_true]
    refine exists_congr fun n => ?_
    cases hk : n.kind <;> simp [NodeKind.isServer, Graph.index, node?]

end Index

/-- A lead of two orchestrators that share an agent, with servers on each level. Members are declared first. -/
def Graph.levels : Graph where
  nodes := [⟨"in", "Prompt", .input .default⟩, ⟨"m", "Writer", .agent .default⟩,
    ⟨"q", "Reviewer", .orchestrator .default⟩, ⟨"p", "Planner", .orchestrator .default⟩,
    ⟨"r", "Lead", .orchestrator .default⟩, ⟨"s", "Files", .server .default⟩, ⟨"t", "Search", .server .default⟩,
    ⟨"u", "Mail", .server .default⟩, ⟨"out", "Result", .output .default⟩]
  edges := [⟨"in", .output, "r", .userInput⟩, ⟨"r", .output, "out", .input⟩,
    ⟨"r", .subAgents, "p", .orchestratorInput⟩, ⟨"r", .subAgents, "q", .orchestratorInput⟩,
    ⟨"p", .subAgents, "m", .orchestratorInput⟩, ⟨"q", .subAgents, "m", .orchestratorInput⟩,
    ⟨"u", .toolOutput, "q", .tools⟩, ⟨"t", .toolOutput, "q", .tools⟩, ⟨"t", .toolOutput, "m", .tools⟩,
    ⟨"s", .toolOutput, "r", .tools⟩]

namespace Index

/-- The visit comes to the shared agent by way of the first orchestrator, so its server is listed before those of the
second one. -/
theorem levels_firstUse :
    Graph.levels.index.IsAcyclic ∧ "r" ∈ Graph.levels.index.executables ∧
      Graph.levels.index.Visits ["r"] ["r", "p", "m", "q", "m"] ∧
      Graph.levels.index.closures.get? "r" = some ["s", "t", "u"] ∧
      FirstUses (["r", "p", "m", "q", "m"].flatMap Graph.levels.index.ownServers) ["s", "t", "u"] := by
  have acyclic : Graph.levels.index.IsAcyclic := isAcyclic (by decide +kernel)
  have executable : "r" ∈ Graph.levels.index.executables := by decide
  have closure : Graph.levels.index.closures.get? "r" = some ["s", "t", "u"] := by decide +kernel
  have agent : Graph.levels.index.Visits ["m"] ["m"] :=
    .cons (by rw [show Graph.levels.index.members "m" = [] by decide]; exact .nil) .nil
  have orchestrator (id : String) (h : Graph.levels.index.members id = ["m"]) :
      Graph.levels.index.Visits [id] [id, "m"] := by
    have hbelow : Graph.levels.index.Visits (Graph.levels.index.members id) ["m"] := h ▸ agent
    exact hbelow.cons .nil
  have visit : Graph.levels.index.Visits ["r"] ["r", "p", "m", "q", "m"] := by
    have hbelow : Graph.levels.index.Visits (Graph.levels.index.members "r") ["p", "m", "q", "m"] := by
      rw [show Graph.levels.index.members "r" = ["p", "q"] by decide]
      exact (orchestrator "p" (by decide)).append (orchestrator "q" (by decide))
    exact hbelow.cons .nil
  obtain ⟨visit', servers, hvisit, hget, hservers, -⟩ := (closures_firstUse acyclic).1 "r" executable
  obtain rfl := (hvisit _).mp visit
  obtain rfl := Option.some.inj (closure.symm.trans hget)
  exact ⟨acyclic, executable, visit, closure, hservers⟩

end Index

end AgentWorkflow
