import AgentWorkflow.Proofs.Compile.DataFlow

/-!
Where the dependency graph of a workflow starts.

Main statement: a program in graph mode starts with the nodes at the top level to which only members of
compositions pass data. These are the entry points of the graph and, if there are any, nodes that get all
their data from members.
-/

namespace AgentWorkflow

def Code.start? (builder : String) : Code → Option String
  | .entryPoint name id => if name = builder then some id else none
  | _ => none

/-- The steps that a dependency graph of a program starts with, in order. -/
def Program.starts (p : Program) (builder : String) : List String :=
  p.pieces.filterMap (Code.start? builder)

namespace Code

variable {builder : String} {c : Code}

theorem exists_of_start? (h : c.start? builder ≠ none) : ∃ id, c = .entryPoint builder id := by
  cases c <;> simp_all [start?]

theorem isBuilding_of_start? (h : c.start? builder ≠ none) : c.isBuilding = true := by
  obtain ⟨id, rfl⟩ := exists_of_start? h
  rfl

end Code

namespace Index

variable {g : Graph} {id q : String}

/-- The nodes at the top level to which only members of compositions pass data. -/
def starters (ix : Index) : List String :=
  ix.topLevel.filter fun id => (ix.dataPredecessors id).all ix.isMember

theorem entryPoints_eq (ix : Index) :
    ix.entryPoints = ix.starters.filter fun id => (ix.dataPredecessors id).isEmpty := by
  rw [entryPoints, starters, topLevel, List.filter_filter, List.filter_filter]
  refine List.filter_congr fun id _ => ?_
  cases hp : ix.dataPredecessors id <;> simp

/-- Entry points alone start unless a node at the top level gets all its data from members. -/
theorem starters_eq_entryPoints_iff (ix : Index) : ix.starters = ix.entryPoints ↔
    ∀ id ∈ ix.topLevel, ix.dataPredecessors id ≠ [] → ∃ q ∈ ix.dataPredecessors id, ix.isMember q = false := by
  rw [entryPoints_eq, eq_comm, List.filter_eq_self]
  simp only [starters, List.mem_filter, List.all_eq_true, List.isEmpty_iff, and_imp]
  refine forall₂_congr fun id _ => ?_
  constructor
  · intro h hne
    by_contra hq
    push Not at hq
    exact hne (h fun q hm => Bool.eq_true_of_not_eq_false (hq q hm))
  · intro h hall
    by_contra hne
    obtain ⟨q, hm, hq⟩ := h hne
    rw [hall q hm] at hq
    cases hq

-- A relay starts with its entry point, and a handover with one more node.
example : Graph.relay.index.starters = ["x"] ∧ Graph.handover.index.starters = ["r", "a"] ∧
    Graph.handover.index.entryPoints = ["r"] := by
  decide +kernel

theorem topLevel_nodup (ids : g.HasUniqueIds) : g.index.topLevel.Nodup :=
  ((List.filter_sublist.map Node.id).nodup ids).filter _

theorem mem_topLevel_of_mem_dataPredecessors (h : q ∈ g.index.dataPredecessors id) :
    q ∈ g.index.topLevel ↔ g.index.isMember q = false := by
  obtain ⟨e, -, hv, rfl, -⟩ := mem_dataPredecessors_iff_edge.mp h
  obtain ⟨⟨n, hn, hk⟩, -⟩ := Graph.verdict_dataFlow hv
  rw [topLevel, List.mem_filter, Bool.not_eq_true']
  exact and_iff_right (mem_executables_of_node? hn hk)

end Index

namespace Blueprint

variable {b : Blueprint} {p : Program} {d : Draft} {l : Ledger}

theorem starts_zip_map (members : List String) : b.starts (members.zip (members.map b.identOf)) =
    (members.filter fun m => !(b.index.dataPredecessors m).any (· ∈ members)).map b.identOf := by
  have hin (q : String) : (Entries.get? q (members.zip (members.map b.identOf))).isSome = decide (q ∈ members) := by
    rw [Entries.get?_zip_map]
    by_cases hq : q ∈ members <;> simp [hq]
  simp only [starts, hin]
  rw [← List.map_prod_left_eq_zip, List.filter_map, List.map_map]
  rfl

theorem starts_topLevel {g : Graph} {root : Option String} (ids : g.HasUniqueIds) :
    (g.index.blueprint root).starts ((distinct g.index.topLevel).zip
        ((distinct g.index.topLevel).map (g.index.blueprint root).identOf)) =
      g.index.starters.map (g.index.blueprint root).identOf := by
  rw [starts_zip_map, distinct_eq_self (Index.topLevel_nodup ids), Index.starters]
  congr 1
  refine List.filter_congr fun id _ => ?_
  rw [Bool.eq_iff_iff, Bool.not_eq_true', List.any_eq_false, List.all_eq_true]
  refine forall₂_congr fun q hq => ?_
  rw [decide_eq_true_eq, Index.mem_topLevel_of_mem_dataPredecessors hq, Bool.not_eq_false]

theorem filterMap_start?_graphContent {builder name : String} {members : List String} {limits : List Limit} :
    (b.graphContent builder name members limits).filterMap (Code.start? builder) =
      b.starts (members.zip (members.map b.identOf)) := by
  simp only [graphContent, List.cons_append, List.append_assoc, List.filterMap_cons, List.filterMap_append,
    List.filterMap_map, Function.comp_def, Code.start?]
  simp

theorem Coherent.start?_content (hb : b.Coherent) {id : String} {c : Code} (h : c ∈ b.content id) :
    c.start? workflowBuilder = none := by
  by_contra hs
  obtain ⟨start, rfl⟩ := Code.exists_of_start? hs
  rcases mem_content h with ⟨_, hc⟩ | ⟨-, _, _, hc⟩ | ⟨_, -, hc⟩ | ⟨settings, hkind, hg⟩
  · cases hc
  · cases hc
  · cases hc
  · have hn : b.index.node? id = some (b.nodeOf id) := node?_of_kind (by rw [hkind]; rfl)
    have hex : (b.kindOf id).isExecutable = true := by
      rw [hkind]
      rfl
    have hbuilder : workflowBuilder = b.nameIn id .builder := by
      rcases mem_graphContent hg with ⟨_, -, hc⟩ | hc | hc | ⟨_, _, hc⟩ | ⟨_, hc⟩ | ⟨_, hc⟩
      · cases hc
      · cases hc
      · cases hc
      · cases hc
      · exact (Code.entryPoint.inj hc).1
      · cases hc
    exact (hb.name_free (hb.name?_eq hn (needsSymbol_of_isExecutable hex) .builder)).2.2 hbuilder.symm

section Select

variable {α : Type} {select : Code → Option α} (hbuilding : ∀ c, select c ≠ none → c.isBuilding = true)
  (hcontent : ∀ id, ∀ c ∈ b.content id, select c = none)

include hbuilding hcontent

theorem Sound.selectAll_eq_nil {first : List Demand} (h : b.Sound first l) (place : Place) :
    ∀ f ∈ l.fragmentsAt place, Code.selectAll select f.code = [] := by
  intro f hf
  obtain ⟨q, hm, -⟩ := Ledger.mem_fragmentsAt.mp hf
  refine Code.selectAll_eq_nil fun c hc => ?_
  by_contra hs
  have hc' := hbuilding c hs
  rcases h.exists_origin hm hc (Code.isFrame_of_isBuilding hc') with ⟨q', f', hm', hcf⟩ | ⟨q', -, -, hcq⟩
  · obtain ⟨inside, rfl⟩ := h.exists_inside hm'
    exact hs (hcontent _ c (content_of_isBuilding hcf hc').2)
  · exact hs (hcontent _ c hcq)

theorem Accounts.filterMap_pieces (hacc : b.Accounts none p d l) :
    p.pieces.filterMap select =
      (b.graphContent workflowBuilder workflowGraph (distinct b.index.topLevel) []).filterMap select := by
  have hframe (c : Code) (hc : c.isFrame = true) : select c = none := by
    by_contra hs
    rw [Code.isFrame_of_isBuilding (hbuilding c hs)] at hc
    cases hc
  have hgraph : Code.selectAll select
      (b.graphContent workflowBuilder workflowGraph (distinct b.index.topLevel) []) = _ :=
    congrArg (List.filterMap select) (Code.piecesAll_eq_self fun _ => pieces_graphContent)
  have hledger (place : Place) := hacc.sound.selectAll_eq_nil hbuilding hcontent place
  obtain ⟨prompt, hfr⟩ := hacc.fragments
  rw [Program.filterMap_pieces hframe, hfr, ← hgraph]
  by_cases hempty : (b.runServers none).isEmpty = true
  · -- Without servers the dependency graph stands at the top level.
    have hentry : Code.selectAll select (b.entryOfRun none prompt l).fragment.code = [] := by
      rw [Entry.selectAll_fragment hframe, if_pos]
      simpa [entryOfRun] using hempty
    have hplace : b.fragmentsIn none l .topLevel = l.fragmentsAt .topLevel ++ b.workflow none := by
      rw [fragmentsIn, entryPlace, if_pos hempty, if_pos rfl]
    rw [hplace, workflow, List.append_assoc, List.singleton_append]
    refine Fragment.selectAll_layout_eq hframe fun f hf => ?_
    rcases List.mem_append.mp hf with hf | hf
    · exact hledger _ f hf
    · exact List.mem_singleton.mp hf ▸ hentry
  · -- With servers it stands in the entry function, where they are open.
    have htop : b.fragmentsIn none l .topLevel = l.fragmentsAt .topLevel := by
      rw [fragmentsIn, entryPlace, if_neg hempty, if_neg (by simp), List.append_nil]
    have hroot : (b.entryOfRun none prompt l).inside = l.fragmentsAt .root ++ b.workflow none := by
      rw [entryOfRun, fragmentsIn, entryPlace, if_neg hempty, if_pos rfl]
    have hclients : ¬(b.entryOfRun none prompt l).clients.isEmpty = true := by
      simpa [entryOfRun] using hempty
    rw [htop, Fragment.selectAll_layout_eq hframe (by simpa using hledger .topLevel),
      Entry.selectAll_fragment hframe, if_neg hclients, hroot, workflow,
      Fragment.selectAll_layout_eq hframe (by simpa using hledger .root)]

end Select

end Blueprint

namespace Compilation

open Drafting

variable {g : Graph} {options : Options}

theorem compile_mode {c : Compilation} (h : c.compile.isSuccess = true) :
    c.compile.mode = some (c.graph.index.effectiveMode c.options.mode) := by
  obtain ⟨p, hp, -⟩ := exists_program h
  obtain ⟨hv, gen, d, hg, -⟩ := exists_generated hp
  rw [compile_of_generate hg hv]
  exact congrArg some ((Index.generate_tells .empty).of_run hg).1

theorem compile_validation (c : Compilation) : c.compile.validation = c.validate := by
  unfold compile compileNoted
  dsimp only
  split_ifs
  · split <;> rfl
  · rfl

end Compilation

end AgentWorkflow
