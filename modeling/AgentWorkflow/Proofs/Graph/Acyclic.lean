import AgentWorkflow.Graph.Validation
import AgentWorkflow.Proofs.Graph.Cycles
import AgentWorkflow.Proofs.Graph.Links

/-!
Membership is not circular.

Main statements: in a graph without problems no node is a member of itself, however indirectly; then every
node has a height above its members, and every executable lies below the top level.
-/

namespace AgentWorkflow

open Relation

namespace Index

/-- A node has another for its member. -/
def HasMember (ix : Index) (id m : String) : Prop :=
  m ∈ ix.members id

/-- A node is a member of another, directly or by way of others. -/
def IsBelow (ix : Index) (m id : String) : Prop :=
  TransGen ix.HasMember id m

/-- No node is below itself. -/
def IsAcyclic (ix : Index) : Prop :=
  ∀ id, ¬ix.IsBelow id id

variable {g : Graph}

theorem leads_arcs {ix : Index} {role : EdgeRole} {s t : String} :
    (ix.arcs role).Leads s t ↔ ⟨s, t, role⟩ ∈ ix.links := by
  simp only [Digraph.Leads, arcs, List.mem_map, List.mem_filter, decide_eq_true_eq, Prod.mk.injEq]
  constructor
  · rintro ⟨⟨_, _, _⟩, ⟨hl, rfl⟩, rfl, rfl⟩
    exact hl
  · exact fun h => ⟨_, ⟨h, rfl⟩, rfl, rfl⟩

theorem leads_membership {ix : Index} {id m : String} :
    (ix.arcs .membership).Leads id m ↔ ix.HasMember id m :=
  leads_arcs.trans mem_members.symm

theorem isAcyclic (h : g.index.validate.valid = true) : g.index.IsAcyclic := by
  intro id hc
  have hp : g.index.problems = [] := List.isEmpty_iff.mp h
  simp only [problems, List.append_eq_nil_iff, List.map_eq_nil_iff] at hp
  have hl : (g.index.arcs .membership).Leads = g.index.HasMember := by
    funext v w
    exact propext leads_membership
  obtain ⟨m, hm, -⟩ := TransGen.head'_iff.mp hc
  obtain ⟨n, hn, hk⟩ := (kinds_of_mem_members hm).1
  refine Digraph.acyclic_of_cycles_eq_nil (g := g.index.arcs .membership) hp.2 (v := id) ?_ (hl ▸ hc)
  exact mem_executables_of_node? hn (isExecutable_of_isComposite hk)

theorem isAcyclic_of_valid (_ : g.HasUniqueIds) (h : g.index.validate.valid = true) :
    g.index.IsAcyclic :=
  isAcyclic h

open Classical in
/-- The number of nodes below a node. -/
noncomputable def height (ix : Index) (id : String) : ℕ :=
  ((ix.links.map Link.target).toFinset.filter fun m => ix.IsBelow m id).card

theorem mem_targets_of_isBelow {ix : Index} {id m : String} (h : ix.IsBelow m id) :
    m ∈ ix.links.map Link.target := by
  obtain ⟨p, -, hm⟩ := TransGen.tail'_iff.mp h
  exact List.mem_map.mpr ⟨_, mem_members.mp hm, rfl⟩

theorem height_lt {ix : Index} (hac : ix.IsAcyclic) {id m : String} (h : ix.IsBelow m id) :
    ix.height m < ix.height id := by
  classical
  refine Finset.card_lt_card (Finset.ssubset_iff_of_subset ?_ |>.mpr ⟨m, ?_, ?_⟩)
  · intro x hx
    obtain ⟨ht, hb⟩ := Finset.mem_filter.mp hx
    exact Finset.mem_filter.mpr ⟨ht, TransGen.trans h hb⟩
  · exact Finset.mem_filter.mpr ⟨List.mem_toFinset.mpr (mem_targets_of_isBelow h), h⟩
  · exact fun hx => hac m (Finset.mem_filter.mp hx).2

theorem height_le_links (ix : Index) (id : String) : ix.height id ≤ ix.links.length := by
  classical
  calc ix.height id
      ≤ (ix.links.map Link.target).toFinset.card := Finset.card_filter_le _ _
    _ ≤ (ix.links.map Link.target).length := List.toFinset_card_le _
    _ = ix.links.length := List.length_map _

theorem isExecutable_of_isBelow {id m : String} (h : g.index.IsBelow m id) :
    ∃ n, g.node? m = some n ∧ n.kind.isExecutable = true := by
  obtain ⟨p, -, hm⟩ := TransGen.tail'_iff.mp h
  exact (kinds_of_mem_members hm).2

theorem height_le_nodes (g : Graph) (id : String) : g.index.height id ≤ g.nodes.length := by
  classical
  calc g.index.height id
      ≤ (g.nodes.map Node.id).toFinset.card := by
        refine Finset.card_le_card fun m hm => List.mem_toFinset.mpr ?_
        obtain ⟨n, hn, -⟩ := isExecutable_of_isBelow (Finset.mem_filter.mp hm).2
        exact List.mem_map.mpr ⟨n, Graph.mem_of_node? hn⟩
    _ ≤ (g.nodes.map Node.id).length := List.toFinset_card_le _
    _ = g.nodes.length := List.length_map _

theorem exists_topLevel (hac : g.index.IsAcyclic) {id : String}
    (h : id ∈ g.index.executables) :
    ∃ top ∈ g.index.topLevel, ReflTransGen g.index.HasMember top id := by
  -- Parents are higher, and no height exceeds the number of nodes.
  induction hk : g.nodes.length - g.index.height id using Nat.strong_induction_on generalizing id with
  | _ k ih =>
    by_cases hm : ∀ p, id ∉ g.index.members p
    · exact ⟨id, mem_topLevel.mpr ⟨h, hm⟩, .refl⟩
    · push Not at hm
      obtain ⟨p, hp⟩ := hm
      obtain ⟨n, hn, hc⟩ := (kinds_of_mem_members hp).1
      have hlt : g.index.height id < g.index.height p := height_lt hac (.single hp)
      have hle := height_le_nodes g p
      obtain ⟨top, ht, hr⟩ := ih _ (by omega)
        (mem_executables_of_node? hn (isExecutable_of_isComposite hc)) rfl
      exact ⟨top, ht, hr.tail hp⟩

end Index

end AgentWorkflow
