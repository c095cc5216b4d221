import AgentWorkflow.Compile.Generation
import AgentWorkflow.Proofs.Naming.SymbolTable
import AgentWorkflow.Proofs.Tools.Closure

/-!
What a blueprint can be relied on for.

A blueprint is coherent when its parts fit each other: links lead to nodes of the right kinds, every node
that needs names has them, no two names are equal, and the closures hold what the nodes below need. Main
statement: the blueprint of a graph is coherent if no node is below itself.
-/

namespace AgentWorkflow

open Relation

namespace Toolbox

theorem get?_foldl_add {nodes : List Node} {custom : List (String × CustomCode)} {id : String}
    (h : id ∉ nodes.map Node.id) :
    Entries.get? id (nodes.foldl add custom) = Entries.get? id custom := by
  induction nodes generalizing custom with
  | nil => rfl
  | cons n rest ih =>
    obtain ⟨hn, hr⟩ := not_or.mp (mt List.mem_cons.mpr h)
    rw [List.foldl_cons, ih hr, add]
    split
    · rw [Entries.get?_put, if_neg hn]
    · rfl

theorem get?_ofNodes {g : Graph} {id : String} {n : Node} (hn : g.node? id = some n)
    {s : CustomToolSettings} (hk : n.kind = .customTool s) :
    (ofNodes g.nodes).get? id = some (CustomCode.scan s.code) := by
  obtain ⟨hid, later, earlier, hsplit, hlater⟩ := List.find?_eq_some_iff_append.mp hn
  obtain rfl : n.id = id := by simpa using hid
  have hnodes : g.nodes = earlier.reverse ++ n :: later.reverse := by
    rw [← List.reverse_reverse g.nodes, hsplit]
    simp
  have ha : n.id ∉ later.reverse.map Node.id := by
    rintro hm
    obtain ⟨m, hm, he⟩ := List.mem_map.mp hm
    simpa [he] using hlater m (List.mem_reverse.mp hm)
  rw [get?, ofNodes, hnodes, List.foldl_append, List.foldl_cons, get?_foldl_add ha, add, hk]
  simp

end Toolbox

namespace Blueprint

/-- The parts of a blueprint fit each other. -/
structure Coherent (b : Blueprint) : Prop where
  node_id : ∀ {id n}, b.index.node? id = some n → n.id = id
  owner : ∀ {id m}, m ∈ b.index.members id →
    ∃ n, b.index.node? id = some n ∧ n.kind.isExecutable = true
  member : ∀ {id m}, m ∈ b.index.members id → ∃ n, b.index.node? m = some n ∧ n.kind.isExecutable = true
  tool : ∀ {id t n}, t ∈ b.index.tools id → b.index.node? t = some n → n.kind.isTool = true
  acyclic : b.index.IsAcyclic
  shallow : ∀ id, b.index.height id < b.depth
  named : ∀ {id n}, b.index.node? id = some n → SymbolTable.needsSymbol n.kind = true →
    ∃ ident, b.symbols.ident? id = some ident
  name_inj : ∀ {id id' name role role'}, b.symbols.name? id role = some name →
    b.symbols.name? id' role' = some name → id = id' ∧ role = role'
  name_free : ∀ {id name role}, b.symbols.name? id role = some name →
    name ∉ b.toolbox.reservedNames ∧ name ≠ workflowGraph ∧ name ≠ workflowBuilder
  custom : ∀ {id n s}, b.index.node? id = some n → n.kind = .customTool s →
    ∃ code, b.toolbox.get? id = some code
  closure : ∀ {id n}, b.index.node? id = some n → n.kind.isExecutable = true →
    b.index.IsClosure id (b.closures.servers id)
  needed : ∀ {id s}, s ∈ b.closures.servers id → b.index.Needs id s
  servers_nodup : ∀ id, (b.closures.servers id).Nodup

variable {g : Graph}

theorem coherent_of_isAcyclic (hac : g.index.IsAcyclic) (root : Option String) :
    (g.index.blueprint root).Coherent where
  node_id h := (Graph.mem_of_node? h).2
  owner h := (Index.kinds_of_mem_members h).1.imp fun _ hn =>
    ⟨hn.1, Index.isExecutable_of_isComposite hn.2⟩
  member h := (Index.kinds_of_mem_members h).2
  tool h hn := (Index.kinds_of_mem_tools h).1 _ hn
  acyclic := hac
  shallow id := by
    have hle := Index.height_le_nodes g id
    change g.index.height id < 16 * (g.nodes.length + 2) * (g.nodes.length + 2)
    nlinarith
  named h hk := by
    obtain ⟨-, rfl⟩ := Graph.mem_of_node? h
    exact Option.isSome_iff_exists.mp (SymbolTable.ident?_isSome_of_node? h (Or.inr hk))
  name_inj := SymbolTable.name?_inj
  name_free h :=
    ⟨SymbolTable.name?_not_reserved h, SymbolTable.name?_ne_synthetic h .graph,
      SymbolTable.name?_ne_synthetic h .builder⟩
  custom h hk := ⟨_, Toolbox.get?_ofNodes h hk⟩
  closure h hk := Index.isClosure_servers hac (Index.mem_executables_of_node? h hk)
  needed := Index.needs_of_mem_servers hac
  servers_nodup := Index.servers_nodup hac

theorem coherent (_ : g.HasUniqueIds) (hac : g.index.IsAcyclic) (root : Option String) :
    (g.index.blueprint root).Coherent :=
  coherent_of_isAcyclic hac root

end Blueprint

end AgentWorkflow
