import AgentWorkflow.Proofs.Graph.Acyclic

/-!
Which graphs are valid.

Main statement: a graph is valid exactly if it has an executable, an input and an output, every input and
every output is connected, and neither the flow of data nor membership goes in circles. So the order in which
nodes and edges are declared does not matter.
-/

namespace AgentWorkflow

open Relation

namespace Graph

/-- An edge with a role leads from one node to another. -/
def Connects (g : Graph) (role : EdgeRole) (s t : String) : Prop :=
  ∃ e ∈ g.edges, g.verdict e = .role role ∧ e.source = s ∧ e.target = t

/-- What a graph needs to be a workflow. -/
structure IsWorkflow (g : Graph) : Prop where
  executable : ∃ n ∈ g.nodes, n.kind.isExecutable = true
  input : ∃ n ∈ g.nodes, n.kind.isInput = true
  output : ∃ n ∈ g.nodes, n.kind.isOutput = true
  /-- Every input is the source of an edge to a node. -/
  inputs : ∀ n ∈ g.nodes, n.kind.isInput = true →
    ∃ e ∈ g.edges, e.source = n.id ∧ ∃ m ∈ g.nodes, m.id = e.target
  /-- Every output is the target of an edge from a node. -/
  outputs : ∀ n ∈ g.nodes, n.kind.isOutput = true →
    ∃ e ∈ g.edges, e.target = n.id ∧ ∃ m ∈ g.nodes, m.id = e.source
  dataFlow : ∀ id, ¬TransGen (g.Connects .dataFlow) id id
  membership : ∀ id, ¬TransGen (g.Connects .membership) id id

variable {g : Graph} {id : String} {e : Edge}

theorem node?_isSome : (g.node? id).isSome = true ↔ ∃ n ∈ g.nodes, n.id = id := by
  simp [node?, List.find?_isSome]

theorem isAnchored_of_source {n : Node} (hn : n ∈ g.nodes) (he : e.source = n.id) :
    g.index.isAnchored e = true ↔ ∃ m ∈ g.nodes, m.id = e.target := by
  have hs : (g.node? e.source).isSome = true := node?_isSome.mpr ⟨n, hn, he.symm⟩
  simp only [Index.isAnchored, Index.node?, index, hs, Bool.true_and, node?_isSome]

theorem isAnchored_of_target {n : Node} (hn : n ∈ g.nodes) (he : e.target = n.id) :
    g.index.isAnchored e = true ↔ ∃ m ∈ g.nodes, m.id = e.source := by
  have ht : (g.node? e.target).isSome = true := node?_isSome.mpr ⟨n, hn, he.symm⟩
  simp only [Index.isAnchored, Index.node?, index, ht, Bool.and_true, node?_isSome]

end Graph

namespace Index

variable {ix : Index} {g : Graph} {id : String} {role : EdgeRole}

theorem outgoingCount_eq_zero :
    ix.outgoingCount id = 0 ↔ ∀ e ∈ ix.graph.edges, ix.isAnchored e = true → e.source ≠ id := by
  simp [outgoingCount, List.countP_eq_zero]

theorem incomingCount_eq_zero :
    ix.incomingCount id = 0 ↔ ∀ e ∈ ix.graph.edges, ix.isAnchored e = true → e.target ≠ id := by
  simp [incomingCount, List.countP_eq_zero]

theorem missingKinds_eq_nil :
    g.index.missingKinds = [] ↔ (∃ n ∈ g.nodes, n.kind.isExecutable = true) ∧
      (∃ n ∈ g.nodes, n.kind.isInput = true) ∧ ∃ n ∈ g.nodes, n.kind.isOutput = true := by
  have hex : g.index.executables.isEmpty = false ↔ ∃ n ∈ g.nodes, n.kind.isExecutable = true := by
    simp [executables, Graph.executables, Graph.index]
  rw [← hex, ← List.any_eq_true, ← List.any_eq_true]
  simp only [missingKinds, List.append_eq_nil_iff, and_assoc]
  change _ ∧ (if g.nodes.any (·.kind.isInput) then _ else _) = _ ∧ (if g.nodes.any (·.kind.isOutput) then _ else _) = _ ↔ _
  cases g.index.executables.isEmpty <;> simp

theorem idleNodes_eq_nil :
    g.index.idleNodes = [] ↔
      (∀ n ∈ g.nodes, n.kind.isInput = true →
        ∃ e ∈ g.edges, e.source = n.id ∧ ∃ m ∈ g.nodes, m.id = e.target) ∧
      ∀ n ∈ g.nodes, n.kind.isOutput = true →
        ∃ e ∈ g.edges, e.target = n.id ∧ ∃ m ∈ g.nodes, m.id = e.source := by
  have hout (n : Node) (hn : n ∈ g.nodes) : g.index.outgoingCount n.id ≠ 0 ↔
      ∃ e ∈ g.edges, e.source = n.id ∧ ∃ m ∈ g.nodes, m.id = e.target := by
    rw [ne_eq, outgoingCount_eq_zero]
    push Not
    refine exists_congr fun e => and_congr_right fun _ => ?_
    rw [and_comm]
    exact and_congr_right fun he => Graph.isAnchored_of_source hn he
  have hin (n : Node) (hn : n ∈ g.nodes) : g.index.incomingCount n.id ≠ 0 ↔
      ∃ e ∈ g.edges, e.target = n.id ∧ ∃ m ∈ g.nodes, m.id = e.source := by
    rw [ne_eq, incomingCount_eq_zero]
    push Not
    refine exists_congr fun e => and_congr_right fun _ => ?_
    rw [and_comm]
    exact and_congr_right fun he => Graph.isAnchored_of_target hn he
  rw [idleNodes, List.filterMap_eq_nil_iff, ← forall₂_and]
  refine forall₂_congr fun n hn => ?_
  rw [← hout n hn, ← hin n hn]
  split_ifs with hi ho
  · simp [hi]
  · simp [ho]
  · simp only [not_and, true_iff] at hi ho ⊢
    exact ⟨hi, ho⟩

theorem cycles_eq_nil (hs : ∀ e, g.verdict e = .role role →
      ∃ n, g.node? e.source = some n ∧ n.kind.isExecutable = true) :
    g.index.cycles role = [] ↔ ∀ id, ¬TransGen (g.Connects role) id id := by
  have hl : (g.index.arcs role).Leads = g.Connects role := by
    funext s t
    exact propext (leads_arcs.trans Graph.mem_links)
  rw [← hl]
  refine Digraph.cycles_eq_nil_iff fun s t h => ?_
  rw [hl] at h
  obtain ⟨e, -, hv, rfl, -⟩ := h
  obtain ⟨n, hn, hex⟩ := hs e hv
  exact mem_executables_of_node? hn hex

theorem problems_eq_nil : g.index.problems = [] ↔ g.IsWorkflow := by
  have hd := cycles_eq_nil (g := g) fun _ h => (Graph.verdict_dataFlow h).1
  have hm := cycles_eq_nil (g := g) fun _ h =>
    (Graph.verdict_membership h).1.imp fun _ ⟨hn, hc⟩ => ⟨hn, isExecutable_of_isComposite hc⟩
  simp only [problems, List.append_eq_nil_iff, List.map_eq_nil_iff, missingKinds_eq_nil, idleNodes_eq_nil, hd, hm]
  constructor
  · rintro ⟨⟨⟨⟨he, hi, ho⟩, his, hos⟩, hd⟩, hm⟩
    exact ⟨he, hi, ho, his, hos, hd, hm⟩
  · rintro ⟨he, hi, ho, his, hos, hd, hm⟩
    exact ⟨⟨⟨⟨he, hi, ho⟩, his, hos⟩, hd⟩, hm⟩

end Index

namespace Graph

variable {g h : Graph}

theorem HasUniqueIds.perm (ids : g.HasUniqueIds) (hn : h.nodes.Perm g.nodes) : h.HasUniqueIds :=
  (hn.map Node.id).nodup_iff.mpr ids

theorem HasUniqueIds.node?_perm (ids : g.HasUniqueIds) (hn : h.nodes.Perm g.nodes) (id : String) :
    h.node? id = g.node? id := by
  refine Option.ext fun n => ?_
  rw [(ids.perm hn).node?_eq_some, ids.node?_eq_some, hn.mem_iff]

theorem verdict_congr (hn : ∀ id, h.node? id = g.node? id) (e : Edge) : h.verdict e = g.verdict e := by
  simp only [verdict, hn]

theorem IsWorkflow.perm (ids : g.HasUniqueIds) (hn : h.nodes.Perm g.nodes) (he : h.edges.Perm g.edges)
    (hw : g.IsWorkflow) : h.IsWorkflow := by
  have hc (role : EdgeRole) : h.Connects role = g.Connects role := by
    funext s t
    simp only [Connects, he.mem_iff, verdict_congr (ids.node?_perm hn)]
  obtain ⟨hex, hi, ho, his, hos, hd, hm⟩ := hw
  constructor
  · simpa only [hn.mem_iff] using hex
  · simpa only [hn.mem_iff] using hi
  · simpa only [hn.mem_iff] using ho
  · simpa only [hn.mem_iff, he.mem_iff] using his
  · simpa only [hn.mem_iff, he.mem_iff] using hos
  · rwa [hc]
  · rwa [hc]

theorem valid_iff : g.index.validate.valid = true ↔ g.IsWorkflow :=
  List.isEmpty_iff.trans Index.problems_eq_nil

/-- A graph is valid exactly if there are no errors, and that is exactly if it is a workflow. The order of
declaration does not matter. -/
theorem validate_valid_iff (ids : g.HasUniqueIds) :
    (g.index.validate.valid = true ↔ g.index.validate.errors = []) ∧
      (g.index.validate.valid = true ↔ g.IsWorkflow) ∧
      ∀ h : Graph, h.nodes.Perm g.nodes → h.edges.Perm g.edges →
        h.index.validate.valid = g.index.validate.valid := by
  refine ⟨?_, valid_iff, fun h hn he => Bool.eq_iff_iff.mpr ?_⟩
  · simp [Index.validate]
  · rw [valid_iff, valid_iff]
    exact ⟨.perm (ids.perm hn) hn.symm he.symm, .perm ids hn he⟩

end Graph

/-- A lead whose member passes data to an agent at the top level. -/
def Graph.handover : Graph where
  nodes := [⟨"in", "Prompt", .input .default⟩, ⟨"r", "Lead", .orchestrator .default⟩,
    ⟨"m", "Planner", .agent .default⟩, ⟨"a", "Writer", .agent .default⟩,
    ⟨"out", "Result", .output .default⟩]
  edges := [⟨"in", .output, "r", .userInput⟩, ⟨"r", .subAgents, "m", .orchestratorInput⟩,
    ⟨"m", .output, "a", .userInput⟩, ⟨"a", .output, "out", .input⟩]

/-- The same, with data passed back to the member. -/
def Graph.pingPong : Graph :=
  { Graph.handover with edges := ⟨"a", .output, "m", .userInput⟩ :: Graph.handover.edges }

namespace Graph

theorem handover_isWorkflow_pingPong_invalid :
    handover.HasUniqueIds ∧ handover.IsWorkflow ∧ handover.index.validate.errors = [] ∧
      (Graph.mk handover.nodes.reverse handover.edges.reverse).index.validate.valid = true ∧
      pingPong.HasUniqueIds ∧ ¬pingPong.IsWorkflow ∧ pingPong.index.validate.errors ≠ [] := by
  have ids : handover.HasUniqueIds := by decide
  have ids' : pingPong.HasUniqueIds := by decide
  have valid : handover.index.validate.valid = true := by decide +kernel
  have invalid : pingPong.index.validate.valid = false := by decide +kernel
  obtain ⟨errors, workflow, order⟩ := validate_valid_iff ids
  obtain ⟨errors', workflow', -⟩ := validate_valid_iff ids'
  refine ⟨ids, workflow.mp valid, errors.mp valid, ?_, ids', fun h => ?_, fun h => ?_⟩
  · exact (order _ (List.reverse_perm _) (List.reverse_perm _)).trans valid
  · exact absurd (workflow'.mpr h) (by rw [invalid]; simp)
  · exact absurd (errors'.mpr h) (by rw [invalid]; simp)

end Graph

end AgentWorkflow
