import AgentWorkflow.Proofs.Graph.Validity

/-!
What ill-typed edges change in the report on a graph.

They count as connections of inputs and outputs and nothing else. Main statement: without its ill-typed edges a
graph has the same entry points, disconnected nodes and cycles, and the same warnings but for those that name
the edges; and it has the same errors exactly if no input and no output is connected by ill-typed edges alone.
-/

namespace AgentWorkflow

section Sublist

variable {α β : Type} {f f' : α → Option β} (h : ∀ a b, f a = some b → f' a = some b)

include h

theorem filterMap_sublist_of_le (l : List α) : (l.filterMap f).Sublist (l.filterMap f') := by
  induction l with
  | nil => exact .refl _
  | cons a rest ih =>
    rw [List.filterMap_cons, List.filterMap_cons]
    cases hf : f a with
    | some b => simpa only [h a b hf] using ih.cons_cons b
    | none =>
      cases f' a with
      | none => exact ih
      | some b => exact ih.cons b

theorem filterMap_eq_iff_of_le {l : List α} : l.filterMap f' = l.filterMap f ↔ ∀ a ∈ l, f' a = f a := by
  refine ⟨fun heq => ?_, List.filterMap_congr⟩
  induction l with
  | nil => simp
  | cons a rest ih =>
    rw [List.filterMap_cons, List.filterMap_cons] at heq
    cases hf : f a with
    | some b =>
      simp only [hf, h a b hf, List.cons.injEq, true_and] at heq
      exact List.forall_mem_cons.mpr ⟨(h a b hf).trans hf.symm, ih heq⟩
    | none =>
      cases hf' : f' a with
      | none =>
        simp only [hf, hf'] at heq
        exact List.forall_mem_cons.mpr ⟨hf'.trans hf.symm, ih heq⟩
      | some b =>
        -- What more there is at the head cannot be made up for in the tail.
        simp only [hf, hf'] at heq
        have hlen := (filterMap_sublist_of_le h rest).length_le
        rw [← heq, List.length_cons] at hlen
        omega

end Sublist

namespace Graph

/-- A graph without its ill-typed edges. -/
def typed (g : Graph) : Graph :=
  { g with edges := g.edges.filter fun e => !(g.verdict e).isIllTyped }

/-- An input or an output that is connected, but by ill-typed edges alone. -/
def IsMiswired (g : Graph) (n : Node) : Prop :=
  (n.kind.isInput = true ∧ g.index.outgoingCount n.id ≠ 0 ∧
      ∀ e ∈ g.edges, g.index.isAnchored e = true → e.source = n.id → (g.verdict e).isIllTyped = true) ∨
    n.kind.isOutput = true ∧ g.index.incomingCount n.id ≠ 0 ∧
      ∀ e ∈ g.edges, g.index.isAnchored e = true → e.target = n.id → (g.verdict e).isIllTyped = true

variable {g : Graph} {n : Node} {e : Edge}

theorem mem_typed_edges : e ∈ g.typed.edges ↔ e ∈ g.edges ∧ (g.verdict e).isIllTyped = false := by
  rw [typed, List.mem_filter, Bool.not_eq_true']

theorem links_typed (g : Graph) : g.typed.links = g.links := by
  refine List.filterMap_filter.trans (List.filterMap_congr fun e _ => ?_)
  change (if !(g.verdict e).isIllTyped then g.link? e else none) = g.link? e
  rw [link?]
  cases g.verdict e <;> rfl

theorem index_typed (g : Graph) : g.typed.index = ⟨g.typed, g.links⟩ := by
  rw [index, links_typed]

end Graph

namespace Index

variable {g : Graph} {n : Node}

theorem outgoingCount_typed_eq_zero (id : String) : g.typed.index.outgoingCount id = 0 ↔
    ∀ e ∈ g.edges, g.index.isAnchored e = true → e.source = id → (g.verdict e).isIllTyped = true := by
  rw [outgoingCount_eq_zero]
  refine forall_congr' fun e => ?_
  change e ∈ g.typed.edges → g.index.isAnchored e = true → e.source ≠ id ↔ _
  rw [Graph.mem_typed_edges, ← Bool.not_eq_true]
  tauto

theorem incomingCount_typed_eq_zero (id : String) : g.typed.index.incomingCount id = 0 ↔
    ∀ e ∈ g.edges, g.index.isAnchored e = true → e.target = id → (g.verdict e).isIllTyped = true := by
  rw [incomingCount_eq_zero]
  refine forall_congr' fun e => ?_
  change e ∈ g.typed.edges → g.index.isAnchored e = true → e.target ≠ id ↔ _
  rw [Graph.mem_typed_edges, ← Bool.not_eq_true]
  tauto

/-- What is said of an input or an output that is not connected. -/
def idle? (ix : Index) (n : Node) : Option Problem :=
  if n.kind.isInput ∧ ix.outgoingCount n.id = 0 then some (.idleInput n)
  else if n.kind.isOutput ∧ ix.incomingCount n.id = 0 then some (.idleOutput n)
  else none

theorem outgoingCount_typed_of_eq_zero {id : String} (h : g.index.outgoingCount id = 0) :
    g.typed.index.outgoingCount id = 0 :=
  (outgoingCount_typed_eq_zero id).mpr fun e he ha hs => absurd hs (outgoingCount_eq_zero.mp h e he ha)

theorem incomingCount_typed_of_eq_zero {id : String} (h : g.index.incomingCount id = 0) :
    g.typed.index.incomingCount id = 0 :=
  (incomingCount_typed_eq_zero id).mpr fun e he ha hs => absurd hs (incomingCount_eq_zero.mp h e he ha)

theorem isOutput_of_isInput {kind : NodeKind} (h : kind.isInput = true) : kind.isOutput = false := by
  cases kind <;> simp_all [NodeKind.isInput, NodeKind.isOutput]

theorem idle?_typed_of_eq_some (n : Node) (p : Problem) (h : g.index.idle? n = some p) :
    g.typed.index.idle? n = some p := by
  unfold idle? at h ⊢
  split_ifs at h with hi ho
  · rw [if_pos ⟨hi.1, outgoingCount_typed_of_eq_zero hi.2⟩, h]
  · have hni : ¬n.kind.isInput = true := fun hin => by simp [isOutput_of_isInput hin] at ho
    rw [if_neg (fun hc => hni hc.1), if_pos ⟨ho.1, incomingCount_typed_of_eq_zero ho.2⟩, h]

theorem idle?_typed_eq_iff : g.typed.index.idle? n = g.index.idle? n ↔ ¬g.IsMiswired n := by
  simp only [idle?, Graph.IsMiswired, ← outgoingCount_typed_eq_zero, ← incomingCount_typed_eq_zero]
  cases hi : n.kind.isInput with
  | true =>
    have hz : g.index.outgoingCount n.id = 0 → g.typed.index.outgoingCount n.id = 0 := outgoingCount_typed_of_eq_zero
    simp only [isOutput_of_isInput hi, true_and, Bool.false_eq_true, false_and, if_false, or_false]
    by_cases ho : g.index.outgoingCount n.id = 0
    · simp [ho, hz ho]
    · simp [ho]
  | false =>
    have hz : g.index.incomingCount n.id = 0 → g.typed.index.incomingCount n.id = 0 := incomingCount_typed_of_eq_zero
    simp only [Bool.false_eq_true, false_and, if_false, false_or]
    cases n.kind.isOutput with
    | false => simp
    | true =>
      by_cases ho : g.index.incomingCount n.id = 0
      · simp [ho, hz ho]
      · simp [ho]

theorem problems_typed (g : Graph) : ∃ before after,
    g.index.problems = before ++ g.nodes.filterMap g.index.idle? ++ after ∧
      g.typed.index.problems = before ++ g.nodes.filterMap g.typed.index.idle? ++ after := by
  refine ⟨g.index.missingKinds, (g.index.cycles .dataFlow).map .cycle ++
    (g.index.cycles .membership).map .compositionCycle, ?_, ?_⟩
  · exact List.append_assoc ..
  · rw [Graph.index_typed]
    exact List.append_assoc ..

theorem problems_typed_sublist (g : Graph) : g.index.problems.Sublist g.typed.index.problems := by
  obtain ⟨before, after, h, h'⟩ := problems_typed g
  rw [h, h']
  exact ((List.Sublist.refl _).append (filterMap_sublist_of_le idle?_typed_of_eq_some _)).append (.refl _)

theorem problems_typed_eq_iff :
    g.typed.index.problems = g.index.problems ↔ ∀ n ∈ g.nodes, ¬g.IsMiswired n := by
  obtain ⟨before, after, h, h'⟩ := problems_typed g
  rw [h, h', List.append_left_inj, List.append_right_inj, filterMap_eq_iff_of_le idle?_typed_of_eq_some]
  exact forall₂_congr fun n _ => idle?_typed_eq_iff

theorem map_rejected {β : Type} (ix : Index) (sort : Verdict → Bool) (f : Edge → String → β) :
    ((ix.rejected sort).map fun p => f p.2.1 p.2.2) =
      ix.graph.edges.filterMap fun e =>
        if sort (ix.graph.verdict e) then (ix.graph.verdict e).reason?.map (f e) else none := by
  have hfst : ix.graph.edges = ix.graph.edges.zipIdx.map Prod.fst := (List.zipIdx_map_fst 0 _).symm
  conv_rhs => rw [hfst, List.filterMap_map]
  rw [rejected, List.map_filterMap]
  refine List.filterMap_congr fun ⟨e, i⟩ _ => ?_
  dsimp only [Function.comp_apply]
  split_ifs
  · rw [Option.map_map]
    rfl
  · rfl

theorem map_dangling_typed {β : Type} (g : Graph) (f : Edge → String → β) :
    (g.typed.index.dangling.map fun p => f p.2.1 p.2.2) =
      g.index.dangling.map fun p => f p.2.1 p.2.2 := by
  rw [dangling, dangling, map_rejected, map_rejected]
  refine List.filterMap_filter.trans (List.filterMap_congr fun e _ => ?_)
  change (if !(g.verdict e).isIllTyped then (if (g.verdict e).isDangling then _ else none) else none) =
    if (g.verdict e).isDangling then _ else none
  cases g.verdict e <;> rfl

theorem map_illTyped_typed {β : Type} (g : Graph) (f : Edge → String → β) :
    (g.typed.index.illTyped.map fun p => f p.2.1 p.2.2) = [] := by
  rw [illTyped, map_rejected, List.filterMap_eq_nil_iff]
  intro e he
  have hv : (g.verdict e).isIllTyped = false := (Graph.mem_typed_edges.mp he).2
  exact if_neg (Bool.eq_false_iff.mp hv)

theorem mem_illTyped {p : ℕ × Edge × String} (h : p ∈ g.index.illTyped) :
    p.2.1 ∈ g.edges ∧ ∃ reason, g.verdict p.2.1 = .illTyped reason ∧ p.2.2 = reason.message := by
  obtain ⟨⟨e, i⟩, he, hp⟩ := List.mem_filterMap.mp h
  dsimp only at hp
  split_ifs at hp with hs
  cases hv : g.verdict e with
  | illTyped reason =>
    have hg : g.index.graph.verdict e = .illTyped reason := hv
    rw [hg] at hp
    obtain rfl := Option.some.inj hp
    exact ⟨List.fst_mem_of_mem_zipIdx he, reason, hv, rfl⟩
  | _ =>
    have hg : (g.verdict e).isIllTyped = true := hs
    simp [hv, Verdict.isIllTyped] at hg

def nodeAdvice (ix : Index) : List Advice :=
  (if ix.entryPoints.isEmpty ∧ ¬ix.executables.isEmpty then [.noEntryPoint] else []) ++
    ix.disconnected.map .unreachable ++
    (ix.entryPoints.filter fun id => !ix.isFed id).map .unfedEntry

theorem warnings_eq (g : Graph) : g.index.validate.warnings =
    g.index.nodeAdvice.map (·.message g) ++
      (g.index.illTyped.map fun p => (Advice.ignoredEdge p.2.1 p.2.2).message g) ++
      g.index.dangling.map fun p => (Advice.ignoredEdge p.2.1 p.2.2).message g := by
  have hadvice : g.index.advice = g.index.nodeAdvice ++
      (g.index.illTyped ++ g.index.dangling).map fun p => .ignoredEdge p.2.1 p.2.2 := rfl
  change g.index.advice.map (·.message g) = _
  rw [hadvice, List.map_append, List.map_map, List.map_append, ← List.append_assoc]
  rfl

theorem nodeAdvice_typed (g : Graph) : g.typed.index.nodeAdvice = g.index.nodeAdvice := by
  rw [Graph.index_typed]
  rfl

theorem warnings_typed (g : Graph) : ∃ before ignored after,
    g.index.validate.warnings = before ++ ignored ++ after ∧ g.typed.index.validate.warnings = before ++ after ∧
      ∀ w ∈ ignored, ∃ e ∈ g.edges, ∃ reason, g.verdict e = .illTyped reason ∧
        w = (Advice.ignoredEdge e reason.message).message g := by
  refine ⟨_, _, _, warnings_eq g, ?_, fun w hw => ?_⟩
  · rw [warnings_eq, nodeAdvice_typed,
      map_illTyped_typed g fun e reason => (Advice.ignoredEdge e reason).message g.typed, List.append_nil,
      map_dangling_typed g fun e reason => (Advice.ignoredEdge e reason).message g.typed]
    rfl
  · obtain ⟨⟨i, e, text⟩, hp, rfl⟩ := List.mem_map.mp hw
    obtain ⟨he, reason, hv, rfl⟩ := mem_illTyped hp
    exact ⟨e, he, reason, hv, rfl⟩

end Index

namespace Graph

/-- Ill-typed edges change nothing in the report on a graph but the warnings that name them, and the errors of
inputs and outputs that they alone connect. -/
theorem validate_typed (g : Graph) :
    let r := g.index.validate
    let r' := g.typed.index.validate
    r'.entryPoints = r.entryPoints ∧ r'.disconnected = r.disconnected ∧ r'.cycles = r.cycles ∧
      (∃ before ignored after, r.warnings = before ++ ignored ++ after ∧ r'.warnings = before ++ after ∧
        ∀ w ∈ ignored, ∃ e ∈ g.edges, ∃ reason, g.verdict e = .illTyped reason ∧
          w = (Advice.ignoredEdge e reason.message).message g) ∧
      r.errors.Sublist r'.errors ∧ (r'.errors = r.errors ↔ ∀ n ∈ g.nodes, ¬g.IsMiswired n) ∧
      (r'.valid = r.valid ↔ (r.valid = true → ∀ n ∈ g.nodes, ¬g.IsMiswired n)) := by
  intro r r'
  have hsub := Index.problems_typed_sublist g
  have hkept := Index.problems_typed_eq_iff (g := g)
  refine ⟨?_, ?_, ?_, Index.warnings_typed g, hsub.map _, ?_, ?_⟩
  · simp only [r, r', index_typed]
    rfl
  · simp only [r, r', index_typed]
    rfl
  · simp only [r, r', index_typed]
    rfl
  · refine Iff.trans ⟨fun he => ?_, fun he => ?_⟩ hkept
    · have hlen : (g.typed.index.problems.map (·.message g.typed)).length =
          (g.index.problems.map (·.message g)).length := congrArg List.length he
      rw [List.length_map, List.length_map] at hlen
      exact (hsub.eq_of_length hlen.symm).symm
    · change g.typed.index.problems.map (·.message g) = g.index.problems.map (·.message g)
      rw [he]
  · rw [← hkept, Bool.eq_iff_iff]
    change (g.typed.index.problems.isEmpty = true ↔ g.index.problems.isEmpty = true) ↔ (g.index.problems.isEmpty = true → _)
    rw [List.isEmpty_iff, List.isEmpty_iff]
    constructor
    · rintro hiff hnil
      rw [hnil, hiff.mpr hnil]
    · rintro himp
      exact ⟨fun hnil => List.sublist_nil.mp (hnil ▸ hsub), fun hnil => (himp hnil).trans hnil⟩

end Graph

/-- An input that is wired to an output, and an agent without input. -/
def Graph.crossed : Graph where
  nodes := [⟨"in", "Prompt", .input .default⟩, ⟨"a", "Writer", .agent .default⟩,
    ⟨"out", "Result", .output .default⟩]
  edges := [⟨"in", .output, "out", .input⟩, ⟨"a", .output, "out", .input⟩]

namespace Graph

/-- The ill-typed edge is all that makes the graph valid. -/
theorem crossed_valid_typed_invalid :
    crossed.HasUniqueIds ∧ crossed.typed.edges = [⟨"a", .output, "out", .input⟩] ∧
      crossed.index.validate.valid = true ∧ crossed.index.validate.errors = [] ∧
      crossed.typed.index.validate.valid = false ∧
      crossed.typed.index.validate.errors = ["Input node 'Prompt' is not connected to any node"] := by
  decide +kernel

end Graph

end AgentWorkflow
