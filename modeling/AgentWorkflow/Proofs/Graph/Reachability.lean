import AgentWorkflow.Proofs.Graph.Adjacency

/-!
Which nodes the flow of a workflow reaches.

Spreading in a directed graph visits a vertex when it is first led to. Main statements: spreading from some vertices
visits exactly those that they lead to; so the disconnected nodes of a workflow are the executables that cannot be
reached from where its flow starts, and each of them is the subject of one warning.
-/

namespace AgentWorkflow

open Relation

namespace Digraph

variable {g : Digraph} {seeds done waiting : List String} {v w : String}

def fresh (g : Digraph) (visited : List String) (v : String) : List String :=
  distinct ((g.successors v).filter fun w => !visited.contains w)

theorem mem_fresh {visited : List String} : w ∈ g.fresh visited v ↔ g.Leads v w ∧ w ∉ visited := by
  simp [fresh, mem_successors]

/-- How far some vertices have spread: those that wait were led to, those that are done lead to nothing else. -/
structure Spreads (g : Digraph) (seeds done waiting : List String) : Prop where
  nodup : (done ++ waiting).Nodup
  held : seeds ⊆ done ++ waiting
  reached : ∀ v ∈ done ++ waiting, g.Reaches seeds v
  closed : ∀ v ∈ done, ∀ w, g.Leads v w → w ∈ done ++ waiting

namespace Spreads

theorem start (hn : seeds.Nodup) : g.Spreads seeds [] seeds where
  nodup := hn
  held := List.Subset.refl seeds
  reached v hv := ⟨v, hv, .refl⟩
  closed _ hv := absurd hv List.not_mem_nil

theorem step (h : g.Spreads seeds done (v :: waiting)) :
    g.Spreads seeds (done ++ [v]) (waiting ++ g.fresh (done ++ v :: waiting) v) := by
  have hvisited : (done ++ [v]) ++ (waiting ++ g.fresh (done ++ v :: waiting) v) =
      (done ++ v :: waiting) ++ g.fresh (done ++ v :: waiting) v := by simp
  constructor
  · rw [hvisited, List.nodup_append]
    refine ⟨h.nodup, distinct_nodup _, ?_⟩
    rintro w hw _ hfresh rfl
    exact (mem_fresh.mp hfresh).2 hw
  · rw [hvisited]
    exact List.subset_append_of_subset_left _ h.held
  · rw [hvisited]
    intro w hw
    rcases List.mem_append.mp hw with hw | hw
    · exact h.reached w hw
    · exact (h.reached v (by simp)).leads (mem_fresh.mp hw).1
  · rw [hvisited]
    intro u hu w huw
    rcases List.mem_append.mp hu with hu | hu
    · exact List.mem_append_left _ (h.closed u hu w huw)
    · obtain rfl := List.mem_singleton.mp hu
      by_cases hw : w ∈ done ++ u :: waiting
      · exact List.mem_append_left _ hw
      · exact List.mem_append_right _ (mem_fresh.mpr ⟨huw, hw⟩)

theorem length_le (h : g.Spreads seeds done waiting) : (done ++ waiting).length ≤ seeds.length + g.length := by
  -- What is visited was a seed or the end of an arc.
  have hsub : done ++ waiting ⊆ seeds ++ g.map Prod.snd := by
    intro v hv
    obtain ⟨s, hs, hsv⟩ := h.reached v hv
    rcases ReflTransGen.cases_tail hsv with rfl | ⟨u, -, huv⟩
    · exact List.mem_append_left _ hs
    · exact List.mem_append_right _ (List.mem_map_of_mem (f := Prod.snd) huv)
  simpa using (h.nodup.subperm hsub).length_le

theorem run {fuel : ℕ} (h : g.Spreads seeds done waiting) (hf : seeds.length + g.length < done.length + fuel) :
    g.Spreads seeds (g.spread fuel (done ++ waiting) waiting) [] := by
  induction fuel generalizing done waiting with
  | zero =>
    have hle := h.length_le
    rw [List.length_append] at hle
    omega
  | succ fuel ih =>
    cases waiting with
    | nil => simpa [spread] using h
    | cons v waiting =>
      have hrun := ih h.step (by simp only [List.length_append, List.length_singleton]; omega)
      rw [List.append_assoc, List.singleton_append, ← List.cons_append, ← List.append_assoc] at hrun
      exact hrun

theorem mem_iff (h : g.Spreads seeds done []) : v ∈ done ↔ g.Reaches seeds v := by
  have hdone : done ++ [] = done := List.append_nil done
  constructor
  · exact fun hv => h.reached v (hdone.symm ▸ hv)
  · rintro ⟨s, hs, hsv⟩
    induction hsv with
    | refl => exact hdone ▸ h.held hs
    | tail _ hvw ih => exact hdone ▸ h.closed _ ih _ hvw

end Spreads

theorem mem_reachable : v ∈ g.reachable seeds ↔ g.Reaches seeds v := by
  have hrun : g.Spreads (distinct seeds) (g.reachable seeds) [] :=
    (Spreads.start (distinct_nodup seeds)).run (by simp)
  rw [hrun.mem_iff]
  simp only [Reaches, mem_distinct]

end Digraph

namespace Graph

def IsExecutable (g : Graph) (id : String) : Prop :=
  ∃ n ∈ g.nodes, n.id = id ∧ n.kind.isExecutable = true

/-- An executable that starts the flow: it is no member, and nothing passes data to it. -/
structure IsEntryPoint (g : Graph) (id : String) : Prop where
  executable : g.IsExecutable id
  outermost : ∀ s, ¬g.Connects .membership s id
  first : ∀ s, ¬g.Connects .dataFlow s id

def IsFed (g : Graph) (id : String) : Prop :=
  ∃ s, g.Connects .inputFeed s id

/-- The flow starts at the entry points that are fed, or at all of them if none is. -/
def IsSeed (g : Graph) (id : String) : Prop :=
  g.IsEntryPoint id ∧ (g.IsFed id ∨ ∀ e, g.IsEntryPoint e → ¬g.IsFed e)

/-- The flow passes from a node to those that it passes data to and to its members. -/
def Flows (g : Graph) (s t : String) : Prop :=
  g.Connects .dataFlow s t ∨ g.Connects .membership s t

def IsReached (g : Graph) (id : String) : Prop :=
  ∃ s, g.IsSeed s ∧ ReflTransGen g.Flows s id

end Graph

namespace Index

variable {g : Graph} {id : String}

theorem mem_sources_iff {role : EdgeRole} {s : String} : s ∈ g.index.sources role id ↔ g.Connects role s id :=
  mem_sources.trans Graph.mem_links

theorem sources_eq_nil {role : EdgeRole} : g.index.sources role id = [] ↔ ∀ s, ¬g.Connects role s id := by
  rw [List.eq_nil_iff_forall_not_mem]
  exact forall_congr' fun s => not_congr mem_sources_iff

theorem isFed_iff : g.index.isFed id = true ↔ g.IsFed id := by
  rw [isFed, Bool.not_eq_true', List.isEmpty_eq_false_iff, ne_eq, inputFeeds, sources_eq_nil, Graph.IsFed]
  push Not
  rfl

theorem mem_executables_iff : id ∈ g.index.executables ↔ g.IsExecutable id := by
  simp only [executables, Graph.executables, Graph.index, List.mem_map, List.mem_filter, and_assoc]
  exact exists_congr fun n => and_congr_right fun _ => and_comm

theorem mem_entryPoints : id ∈ g.index.entryPoints ↔ g.IsEntryPoint id := by
  rw [entryPoints, List.mem_filter, mem_executables_iff, Bool.and_eq_true, Bool.not_eq_true', isMember, Bool.not_eq_false',
    List.isEmpty_iff, List.isEmpty_iff, parents, dataPredecessors, sources_eq_nil, sources_eq_nil]
  constructor
  · rintro ⟨h, hm, hd⟩
    exact ⟨h, hm, hd⟩
  · rintro ⟨h, hm, hd⟩
    exact ⟨h, hm, hd⟩

theorem mem_seeds : id ∈ g.index.seeds ↔ g.IsSeed id := by
  have hfed : g.index.entryPoints.filter g.index.isFed = [] ↔ ∀ e, g.IsEntryPoint e → ¬g.IsFed e := by
    simp only [List.filter_eq_nil_iff, mem_entryPoints, isFed_iff]
  rw [seeds, Graph.IsSeed, ← hfed, ← mem_entryPoints, ← isFed_iff]
  split_ifs with h
  · rw [List.isEmpty_iff] at h
    simp [h]
  · rw [List.isEmpty_iff] at h
    simp [h]

theorem leads_flow : g.index.flow.Leads = g.Flows := by
  funext s t
  have happend : g.index.flow.Leads s t ↔
      (g.index.arcs .dataFlow).Leads s t ∨ (g.index.arcs .membership).Leads s t := List.mem_append
  rw [happend, leads_arcs, leads_arcs, eq_iff_iff]
  exact or_congr Graph.mem_links Graph.mem_links

theorem mem_reachable_flow : id ∈ g.index.flow.reachable g.index.seeds ↔ g.IsReached id := by
  rw [Digraph.mem_reachable, Digraph.Reaches, leads_flow]
  simp only [mem_seeds, Graph.IsReached]

theorem disconnected_sublist : g.index.disconnected.Sublist (g.nodes.map Node.id) := by
  have hexecutables : g.index.executables.Sublist (g.nodes.map Node.id) := List.filter_sublist.map Node.id
  unfold disconnected
  split_ifs
  · exact List.nil_sublist _
  · exact List.filter_sublist.trans hexecutables

theorem entryPoints_ne_nil : g.index.entryPoints ≠ [] ↔ ∃ e, g.IsEntryPoint e := by
  rw [← List.length_pos_iff, List.length_pos_iff_exists_mem]
  simp only [mem_entryPoints]

theorem mem_disconnected :
    id ∈ g.index.disconnected ↔ (∃ e, g.IsEntryPoint e) ∧ g.IsExecutable id ∧ ¬g.IsReached id := by
  rw [disconnected, ← entryPoints_ne_nil]
  split_ifs with h
  · simp [List.isEmpty_iff.mp h]
  · rw [List.isEmpty_iff] at h
    simp only [List.mem_filter, mem_executables_iff, Bool.not_eq_true', List.contains_eq_mem, decide_eq_false_iff_not,
      mem_reachable_flow, ne_eq, h, not_false_eq_true, true_and]

/-- Whether a warning says that a node is not reachable. -/
def isUnreachable (warning : String) : Bool :=
  "'".toList.isPrefixOf warning.toList && "' is not reachable from any input node".toList.isSuffixOf warning.toList

theorem message_unreachable (g : Graph) (id : String) :
    "'".toList <+: ((Advice.unreachable id).message g).toList ∧
      "' is not reachable from any input node".toList <:+ ((Advice.unreachable id).message g).toList := by
  have htext : (Advice.unreachable id).message g =
      "'" ++ g.nameOf id ++ "' is not reachable from any input node" := rfl
  rw [htext]
  constructor
  · rw [String.append_assoc, String.toList_append]
    exact List.prefix_append _ _
  · rw [String.toList_append]
    exact List.suffix_append _ _

theorem isUnreachable_message (g : Graph) (a : Advice) :
    isUnreachable (a.message g) = true ↔ ∃ id, a = .unreachable id := by
  rw [isUnreachable, Bool.and_eq_true, List.isPrefixOf_iff_prefix, List.isSuffixOf_iff_suffix]
  cases a with
  | unreachable id =>
    simp only [message_unreachable g id, Advice.unreachable.injEq, exists_eq', and_self]
  | _ =>
    -- The other warnings start with a letter.
    unfold Advice.message
    simp [List.cons_prefix_cons]

theorem warnings_filter_isUnreachable (g : Graph) : g.index.validate.warnings.filter isUnreachable =
    g.index.disconnected.map fun id => (Advice.unreachable id).message g := by
  have hother (as : List Advice) (h : ∀ a ∈ as, ∀ id, a ≠ .unreachable id) :
      (as.map (·.message g)).filter isUnreachable = [] := by
    refine List.filter_eq_nil_iff.mpr fun w hw => ?_
    obtain ⟨a, ha, rfl⟩ := List.mem_map.mp hw
    rw [isUnreachable_message]
    exact fun ⟨id, hid⟩ => h a ha id hid
  have hlisted : ((g.index.disconnected.map Advice.unreachable).map (·.message g)).filter isUnreachable =
      (g.index.disconnected.map Advice.unreachable).map (·.message g) := by
    refine List.filter_eq_self.mpr fun w hw => ?_
    obtain ⟨a, ha, rfl⟩ := List.mem_map.mp hw
    obtain ⟨id, -, rfl⟩ := List.mem_map.mp ha
    exact (isUnreachable_message g _).mpr ⟨id, rfl⟩
  change (g.index.advice.map (·.message g)).filter isUnreachable = _
  rw [advice, List.map_append, List.map_append, List.map_append, List.filter_append, List.filter_append,
    List.filter_append, hlisted, hother, hother, hother, List.nil_append, List.append_nil, List.append_nil,
    List.map_map]
  · rfl
  all_goals
    rintro _ ha id rfl
    simp at ha

end Index

namespace Graph

/-- The disconnected nodes are the executables that the flow does not reach, in the order of declaration; if nothing
starts the flow, there are none. Each has one warning of its own. -/
theorem validate_disconnected {g : Graph} (ids : g.HasUniqueIds) :
    let r := g.index.validate
    (∀ id, id ∈ r.entryPoints ↔ g.IsEntryPoint id) ∧
      r.disconnected.Sublist (g.nodes.map Node.id) ∧ r.disconnected.Nodup ∧
      (∀ id, id ∈ r.disconnected ↔ (∃ e, g.IsEntryPoint e) ∧ g.IsExecutable id ∧ ¬g.IsReached id) ∧
      r.warnings.filter Index.isUnreachable =
        r.disconnected.map fun id => "'" ++ g.nameOf id ++ "' is not reachable from any input node" :=
  ⟨fun _ => Index.mem_entryPoints, Index.disconnected_sublist, Index.disconnected_sublist.nodup ids,
    fun _ => Index.mem_disconnected, Index.warnings_filter_isUnreachable g⟩

end Graph

/-- A lead that is fed and passes data to a swarm with a member; beside it an agent that is not fed, one that it passes
data to, and two that pass data to each other. -/
def Graph.islands : Graph where
  nodes := [⟨"in", "Prompt", .input .default⟩, ⟨"y", "Echo", .agent .default⟩, ⟨"e", "Editor", .agent .default⟩,
    ⟨"d", "Drafter", .agent .default⟩, ⟨"m", "Writer", .agent .default⟩, ⟨"t", "Team", .swarm .default⟩,
    ⟨"a", "Lead", .agent .default⟩, ⟨"x", "Caller", .agent .default⟩, ⟨"out", "Result", .output .default⟩]
  edges := [⟨"in", .output, "a", .userInput⟩, ⟨"a", .output, "t", .userInput⟩,
    ⟨"t", .subAgents, "m", .orchestratorInput⟩, ⟨"d", .output, "e", .userInput⟩, ⟨"x", .output, "y", .userInput⟩,
    ⟨"y", .output, "x", .userInput⟩, ⟨"t", .output, "out", .input⟩]

namespace Graph

/-- The flow starts at the lead alone, so it reaches the member of the swarm and none of the agents beside. -/
theorem islands_disconnected :
    islands.HasUniqueIds ∧ islands.IsEntryPoint "a" ∧ islands.IsEntryPoint "d" ∧
      islands.index.validate.disconnected = ["y", "e", "d", "x"] ∧ islands.IsReached "m" ∧ ¬islands.IsReached "e" ∧
      islands.index.validate.warnings.filter Index.isUnreachable =
        ["'Echo' is not reachable from any input node", "'Editor' is not reachable from any input node",
          "'Drafter' is not reachable from any input node", "'Caller' is not reachable from any input node"] := by
  have ids : islands.HasUniqueIds := by decide
  have entries : islands.index.validate.entryPoints = ["d", "a"] := by decide +kernel
  have listed : islands.index.validate.disconnected = ["y", "e", "d", "x"] := by decide +kernel
  obtain ⟨entry, -, -, mem, warnings⟩ := validate_disconnected ids
  have lead : islands.IsEntryPoint "a" := (entry "a").mp (entries ▸ by simp)
  have drafter : islands.IsEntryPoint "d" := (entry "d").mp (entries ▸ by simp)
  rw [listed] at mem warnings
  refine ⟨ids, lead, drafter, listed, ?_, ((mem "e").mp (by simp)).2.2, warnings.trans (by decide +kernel)⟩
  by_contra h
  have member : islands.IsExecutable "m" := ⟨⟨"m", "Writer", .agent .default⟩, by simp [islands], rfl, rfl⟩
  have hm := (mem "m").mpr ⟨⟨"a", lead⟩, member, h⟩
  simp at hm

end Graph

end AgentWorkflow
