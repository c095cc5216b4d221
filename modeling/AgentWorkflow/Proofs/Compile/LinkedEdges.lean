import AgentWorkflow.Proofs.Compile.DataFlow

/-!
What edges a program depends on.

The standard expanders read the nodes of a graph and its links. An index also holds all edges, for the report on the
graph, and it is shown here layer by layer that the generation never looks at them. Main statement: valid graphs with
the same nodes, and the same edges among those that have a role, are given the same program or the same error.
-/

namespace AgentWorkflow

namespace Index

/-- An index with other edges and the same links. -/
def withEdges (ix : Index) (es : List Edge) : Index :=
  { ix with graph := { ix.graph with edges := es } }

variable (ix : Index) (es : List Edge)

theorem needed_withEdges (fuel : ℕ) : (ix.withEdges es).needed fuel = ix.needed fuel := by
  induction fuel with
  | zero => rfl
  | succ fuel ih =>
    funext visiting id found
    rw [needed, needed, ih]
    rfl

theorem closures_withEdges : (ix.withEdges es).closures = ix.closures := by
  have hlinks : (ix.withEdges es).links = ix.links := rfl
  rw [closures, hlinks, needed_withEdges]
  rfl

theorem outermostFrom?_withEdges (fuel : ℕ) : (ix.withEdges es).outermostFrom? fuel = ix.outermostFrom? fuel := by
  induction fuel with
  | zero => rfl
  | succ fuel ih =>
    funext seen waiting
    cases waiting with
    | nil => rfl
    | cons id waiting =>
      rw [outermostFrom?, outermostFrom?, ih]
      rfl

theorem outermost?_withEdges : (ix.withEdges es).outermost? = ix.outermost? := by
  funext id
  have hlinks : (ix.withEdges es).links = ix.links := rfl
  rw [outermost?, hlinks, outermostFrom?_withEdges]
  rfl

theorem root?_withEdges : (ix.withEdges es).root? = ix.root? := by
  rw [root?, outermost?_withEdges]
  rfl

theorem rootIn_withEdges (mode : Mode) : (ix.withEdges es).rootIn mode = ix.rootIn mode := by
  unfold rootIn
  rw [root?_withEdges]

theorem effectiveMode_withEdges (mode : Mode) : (ix.withEdges es).effectiveMode mode = ix.effectiveMode mode :=
  rfl

theorem composedBy_withEdges : (ix.withEdges es).composedBy = ix.composedBy := by
  funext root
  rw [composedBy, outermost?_withEdges]
  rfl

end Index

namespace Blueprint

/-- A blueprint with other edges in its index. -/
def withEdges (b : Blueprint) (es : List Edge) : Blueprint :=
  { b with index := b.index.withEdges es }

variable (b : Blueprint) (es : List Edge)

theorem expand_withEdges : (b.withEdges es).expand .standard = b.expand .standard := rfl

theorem expandWithin_withEdges (depth : ℕ) :
    (b.withEdges es).expandWithin .standard depth = b.expandWithin .standard depth := by
  induction depth with
  | zero => rfl
  | succ depth ih =>
    rw [expandWithin, expandWithin, ih, expand_withEdges]

theorem code_withEdges : (b.withEdges es).code .standard = b.code .standard :=
  expandWithin_withEdges b es b.depth

theorem linearRun_withEdges : (b.withEdges es).linearRun = b.linearRun := by
  funext build requested root
  have hcomposed : (b.withEdges es).index.composedBy = b.index.composedBy := b.index.composedBy_withEdges es
  rw [linearRun, hcomposed]
  rfl

theorem graphRun_withEdges : (b.withEdges es).graphRun = b.graphRun := rfl

theorem run_withEdges : (b.withEdges es).run = b.run := by
  funext build requested root
  cases root with
  | none => rw [run, run, graphRun_withEdges]
  | some root => rw [run, run, linearRun_withEdges]

theorem program_withEdges : (b.withEdges es).program = b.program := rfl

end Blueprint

namespace Index

variable (ix : Index) (es : List Edge)

theorem blueprint_withEdges (root : Option String) :
    (ix.withEdges es).blueprint root = (ix.blueprint root).withEdges es := by
  rw [blueprint, closures_withEdges]
  rfl

/-- The program of an index does not depend on its edges, only on its links. -/
theorem generate_withEdges (options : Options) :
    (ix.withEdges es).generate options .standard = ix.generate options .standard := by
  unfold generate
  simp only [effectiveMode_withEdges, rootIn_withEdges, blueprint_withEdges, Blueprint.code_withEdges,
    Blueprint.run_withEdges, Blueprint.program_withEdges]
  rfl

end Index

namespace Graph

/-- The edges of a graph that have a role. -/
def linked (g : Graph) : List Edge :=
  g.edges.filter fun e => (g.verdict e).role?.isSome

variable {g h : Graph}

theorem filterMap_link?_linked (g : Graph) : g.linked.filterMap g.link? = g.links := by
  refine List.filterMap_filter.trans (List.filterMap_congr fun e _ => ?_)
  rw [link?]
  cases g.verdict e <;> rfl

theorem link?_congr (hn : g.nodes = h.nodes) : g.link? = h.link? := by
  obtain ⟨nodes, edges⟩ := g
  obtain rfl := hn
  rfl

theorem index_eq_withEdges (hn : g.nodes = h.nodes) (he : g.linked = h.linked) :
    h.index = g.index.withEdges h.edges := by
  have hlinks : h.links = g.links := by
    rw [← filterMap_link?_linked, ← filterMap_link?_linked, he, link?_congr hn]
  rw [index, hlinks, Index.withEdges]
  change (⟨⟨h.nodes, h.edges⟩, g.links⟩ : Index) = ⟨⟨g.nodes, h.edges⟩, g.links⟩
  rw [hn]

end Graph

namespace Compilation

variable {g h : Graph}

theorem generate_eq_of_linked (options : Options) (hn : g.nodes = h.nodes) (he : g.linked = h.linked) :
    (Compilation.mk g options .standard).generate = (Compilation.mk h options .standard).generate := by
  unfold generate
  rw [Graph.index_eq_withEdges hn he, Index.generate_withEdges]

/-- Valid graphs with the same nodes compile to the same program, or fail with the same error, if they have the same
edges among those that have a role. All that may differ is the report on the graph, which comes first among the
warnings. -/
theorem compile_eq_of_linked (options : Options) (hn : g.nodes = h.nodes) (he : g.linked = h.linked)
    (hg : g.index.validate.valid = true) (hh : h.index.validate.valid = true) :
    let o := (Compilation.mk g options .standard).compile
    let o' := (Compilation.mk h options .standard).compile
    o.sourceText = o'.sourceText ∧ o.imports = o'.imports ∧ o.executionRoot = o'.executionRoot ∧ o.mode = o'.mode ∧
      o.errors = o'.errors ∧
      ∃ warnings, o.warnings = g.index.validate.warnings ++ warnings ∧
        o'.warnings = h.index.validate.warnings ++ warnings := by
  have hsame := generate_eq_of_linked options hn he
  rcases hgen : (Compilation.mk g options .standard).generate with ⟨_ | gen, d⟩
  · rw [compile_of_error hg hgen, compile_of_error hh (hsame ▸ hgen)]
    dsimp only [Output.failed]
    exact ⟨rfl, rfl, rfl, rfl, rfl, [], (List.append_nil _).symm, (List.append_nil _).symm⟩
  · rw [compile_of_ok hg hgen, compile_of_ok hh (hsame ▸ hgen)]
    dsimp only [Output.succeeded]
    exact ⟨rfl, rfl, rfl, rfl, rfl, gen.warnings, rfl, rfl⟩

end Compilation

/-- A relay with an ill-typed edge and one that dangles. -/
def Graph.frayed : Graph :=
  { relay with edges := ⟨"in", .output, "out", .input⟩ :: relay.edges ++ [⟨"ghost", .output, "a", .userInput⟩] }

namespace Compilation

theorem frayed_compile_eq :
    Graph.frayed.nodes = Graph.relay.nodes ∧ Graph.frayed.linked = Graph.relay.linked ∧
      Graph.frayed.index.validate.valid = true ∧ Graph.relay.index.validate.valid = true ∧
      Graph.frayed.edges.length = Graph.relay.edges.length + 2 ∧
      (Compilation.mk .frayed .default .standard).compile.sourceText =
        (Compilation.mk .relay .default .standard).compile.sourceText := by
  have hlinked : Graph.frayed.linked = Graph.relay.linked := by decide +kernel
  have hfrayed : Graph.frayed.index.validate.valid = true := by decide +kernel
  have hrelay : Graph.relay.index.validate.valid = true := by decide +kernel
  obtain ⟨htext, -⟩ := compile_eq_of_linked .default (g := .frayed) (h := .relay) rfl hlinked hfrayed hrelay
  exact ⟨rfl, hlinked, hfrayed, hrelay, rfl, htext⟩

end Compilation

end AgentWorkflow
