import AgentWorkflow.Graph.Index
import Mathlib

/-!
What an index tells of the edges of a graph.

Main statements: a list of targets or sources holds exactly the other ends of the links of its role; the
ends of a membership link are a composition and an executable.
-/

namespace AgentWorkflow

section Distinct

variable {α : Type} [DecidableEq α]

@[simp]
theorem mem_distinct {a : α} {l : List α} : a ∈ distinct l ↔ a ∈ l := by
  induction l with
  | nil => simp [distinct]
  | cons b rest ih => by_cases h : a = b <;> simp [distinct, ih, h]

theorem distinct_nodup (l : List α) : (distinct l).Nodup := by
  induction l with
  | nil => exact List.nodup_nil
  | cons b rest ih => exact List.nodup_cons.mpr ⟨by simp, ih.filter _⟩

theorem distinct_eq_self {l : List α} (h : l.Nodup) : distinct l = l := by
  induction l with
  | nil => rfl
  | cons b rest ih =>
    obtain ⟨hb, hr⟩ := List.nodup_cons.mp h
    rw [distinct, ih hr, List.filter_eq_self.mpr]
    intro a ha
    exact decide_eq_true fun he => hb (he ▸ ha)

end Distinct

namespace EdgeRole

variable {source target : NodeKind} {out into : Handle}

theorem between_membership (h : between source out into target = .ok .membership) :
    source.isComposite = true ∧ target.isExecutable = true := by
  unfold between betweenExecutables at h
  grind

theorem between_dataFlow (h : between source out into target = .ok .dataFlow) :
    source.isExecutable = true ∧ target.isExecutable = true := by
  unfold between betweenExecutables at h
  grind

theorem between_toolAttachment (h : between source out into target = .ok .toolAttachment) :
    source.isTool = true ∧ target.isExecutable = true := by
  unfold between betweenExecutables at h
  grind

end EdgeRole

namespace Graph

/-- The node ids of a graph are different. -/
def HasUniqueIds (g : Graph) : Prop :=
  (g.nodes.map Node.id).Nodup

instance (g : Graph) : Decidable g.HasUniqueIds :=
  inferInstanceAs (Decidable (g.nodes.map Node.id).Nodup)

variable {g : Graph}

theorem mem_of_node? {id : String} {n : Node} (h : g.node? id = some n) :
    n ∈ g.nodes ∧ n.id = id := by
  unfold node? at h
  exact ⟨List.mem_reverse.mp (List.mem_of_find?_eq_some h), by simpa using List.find?_some h⟩

theorem HasUniqueIds.eq (ids : g.HasUniqueIds) {n m : Node} (hn : n ∈ g.nodes) (hm : m ∈ g.nodes)
    (h : n.id = m.id) : n = m :=
  List.inj_on_of_nodup_map ids hn hm h

theorem HasUniqueIds.node?_eq_some (ids : g.HasUniqueIds) {id : String} {n : Node} :
    g.node? id = some n ↔ n ∈ g.nodes ∧ n.id = id := by
  refine ⟨mem_of_node?, fun ⟨hn, hid⟩ => ?_⟩
  have hs : (g.node? id).isSome := by
    rw [node?, List.find?_isSome]
    exact ⟨n, List.mem_reverse.mpr hn, by simpa using hid⟩
  obtain ⟨m, hm⟩ := Option.isSome_iff_exists.mp hs
  obtain ⟨hmg, hmid⟩ := mem_of_node? hm
  rw [hm, ids.eq hmg hn (hmid.trans hid.symm)]

theorem mem_links {l : Link} :
    l ∈ g.links ↔ ∃ e ∈ g.edges, g.verdict e = .role l.role ∧ e.source = l.source ∧ e.target = l.target := by
  simp only [links, List.mem_filterMap, link?, Option.map_eq_some_iff]
  refine exists_congr fun e => and_congr_right fun _ => ?_
  cases hv : g.verdict e with
  | role r =>
    obtain ⟨s, t, r'⟩ := l
    simp [Verdict.role?]
    tauto
  | illTyped r => simp [Verdict.role?]
  | dangling m => simp [Verdict.role?]

theorem exists_between {e : Edge} {role : EdgeRole} (h : g.verdict e = .role role) (hr : role ≠ .toolAttachment) :
    ∃ source target, g.node? e.source = some source ∧ g.node? e.target = some target ∧
      EdgeRole.between source.kind e.sourceHandle e.targetHandle target.kind = .ok role := by
  unfold verdict at h
  split at h
  · rename_i source target hs ht
    refine ⟨source, target, hs, ht, ?_⟩
    split at h <;> simp_all
  · split_ifs at h
    exact absurd (Verdict.role.inj h).symm hr
  all_goals cases h

theorem verdict_membership {e : Edge} (h : g.verdict e = .role .membership) :
    (∃ n, g.node? e.source = some n ∧ n.kind.isComposite = true) ∧
      ∃ n, g.node? e.target = some n ∧ n.kind.isExecutable = true := by
  obtain ⟨source, target, hs, ht, hb⟩ := exists_between h (by simp)
  obtain ⟨hc, he⟩ := EdgeRole.between_membership hb
  exact ⟨⟨source, hs, hc⟩, target, ht, he⟩

theorem verdict_dataFlow {e : Edge} (h : g.verdict e = .role .dataFlow) :
    (∃ n, g.node? e.source = some n ∧ n.kind.isExecutable = true) ∧
      ∃ n, g.node? e.target = some n ∧ n.kind.isExecutable = true := by
  obtain ⟨source, target, hs, ht, hb⟩ := exists_between h (by simp)
  obtain ⟨hs', ht'⟩ := EdgeRole.between_dataFlow hb
  exact ⟨⟨source, hs, hs'⟩, target, ht, ht'⟩

theorem verdict_toolAttachment {e : Edge} (h : g.verdict e = .role .toolAttachment) :
    (∀ n, g.node? e.source = some n → n.kind.isTool = true) ∧
      ∃ n, g.node? e.target = some n ∧ n.kind.isExecutable = true := by
  unfold verdict at h
  split at h
  · rename_i source target hs ht
    have hb : EdgeRole.between source.kind e.sourceHandle e.targetHandle target.kind =
        .ok .toolAttachment := by
      split at h <;> simp_all
    obtain ⟨htool, he⟩ := EdgeRole.between_toolAttachment hb
    exact ⟨fun n hn => (Option.some.inj (hn.symm.trans hs)) ▸ htool, target, ht, he⟩
  · rename_i target hs ht
    split_ifs at h with hc
    exact ⟨fun n hn => absurd hn (by simp [hs]), target, ht, hc.2⟩
  all_goals cases h

end Graph

namespace Index

section

variable {ix : Index} {role : EdgeRole} {s t : String}

theorem mem_targets : t ∈ ix.targets role s ↔ ⟨s, t, role⟩ ∈ ix.links := by
  simp only [targets, mem_distinct, List.mem_map, List.mem_filter, decide_eq_true_eq]
  constructor
  · rintro ⟨⟨_, _, _⟩, ⟨hl, rfl, rfl⟩, rfl⟩
    exact hl
  · exact fun h => ⟨_, ⟨h, rfl, rfl⟩, rfl⟩

theorem mem_sources : s ∈ ix.sources role t ↔ ⟨s, t, role⟩ ∈ ix.links := by
  simp only [sources, mem_distinct, List.mem_map, List.mem_filter, decide_eq_true_eq]
  constructor
  · rintro ⟨⟨_, _, _⟩, ⟨hl, rfl, rfl⟩, rfl⟩
    exact hl
  · exact fun h => ⟨_, ⟨h, rfl, rfl⟩, rfl⟩

theorem mem_members : t ∈ ix.members s ↔ ⟨s, t, .membership⟩ ∈ ix.links := mem_targets

theorem members_nodup : (ix.members s).Nodup := distinct_nodup _

theorem mem_tools : s ∈ ix.tools t ↔ ⟨s, t, .toolAttachment⟩ ∈ ix.links := mem_sources

theorem tools_nodup : (ix.tools t).Nodup := distinct_nodup _

theorem isMember_eq_false : ix.isMember t = false ↔ ∀ s, t ∉ ix.members s := by
  rw [isMember, Bool.not_eq_false', List.isEmpty_iff, List.eq_nil_iff_forall_not_mem]
  exact forall_congr' fun s => by rw [mem_members, parents, mem_sources]

end

variable {g : Graph} {id m t : String}

theorem mem_members_iff_edge : m ∈ g.index.members id ↔
    ∃ e ∈ g.edges, g.verdict e = .role .membership ∧ e.source = id ∧ e.target = m :=
  mem_members.trans Graph.mem_links

theorem mem_tools_iff_edge : t ∈ g.index.tools id ↔
    ∃ e ∈ g.edges, g.verdict e = .role .toolAttachment ∧ e.source = t ∧ e.target = id :=
  mem_tools.trans Graph.mem_links

theorem mem_dataSuccessors_iff_edge : t ∈ g.index.dataSuccessors id ↔
    ∃ e ∈ g.edges, g.verdict e = .role .dataFlow ∧ e.source = id ∧ e.target = t :=
  mem_targets.trans Graph.mem_links

theorem mem_dataPredecessors_iff_edge : t ∈ g.index.dataPredecessors id ↔
    ∃ e ∈ g.edges, g.verdict e = .role .dataFlow ∧ e.source = t ∧ e.target = id :=
  mem_sources.trans Graph.mem_links

theorem kinds_of_mem_members (h : m ∈ g.index.members id) :
    (∃ n, g.node? id = some n ∧ n.kind.isComposite = true) ∧
      ∃ n, g.node? m = some n ∧ n.kind.isExecutable = true := by
  obtain ⟨e, -, hv, rfl, rfl⟩ := mem_members_iff_edge.mp h
  exact Graph.verdict_membership hv

theorem kinds_of_mem_tools (h : t ∈ g.index.tools id) :
    (∀ n, g.node? t = some n → n.kind.isTool = true) ∧
      ∃ n, g.node? id = some n ∧ n.kind.isExecutable = true := by
  obtain ⟨e, -, hv, rfl, rfl⟩ := mem_tools_iff_edge.mp h
  exact Graph.verdict_toolAttachment hv

theorem isExecutable_of_isComposite {kind : NodeKind} (h : kind.isComposite = true) :
    kind.isExecutable = true := by
  cases kind <;> simp_all [NodeKind.isComposite, NodeKind.isExecutable]

theorem mem_executables_of_node? {n : Node} (hn : g.node? id = some n) (he : n.kind.isExecutable = true) :
    id ∈ g.index.executables := by
  obtain ⟨hmem, rfl⟩ := Graph.mem_of_node? hn
  exact List.mem_map_of_mem (List.mem_filter.mpr ⟨hmem, he⟩)

theorem mem_executables (ids : g.HasUniqueIds) :
    id ∈ g.index.executables ↔ ∃ n, g.node? id = some n ∧ n.kind.isExecutable = true := by
  constructor
  · intro h
    obtain ⟨n, hn, rfl⟩ := List.mem_map.mp h
    obtain ⟨hmem, he⟩ := List.mem_filter.mp hn
    exact ⟨n, ids.node?_eq_some.mpr ⟨hmem, rfl⟩, he⟩
  · rintro ⟨n, hn, he⟩
    exact mem_executables_of_node? hn he

theorem mem_topLevel :
    id ∈ g.index.topLevel ↔ id ∈ g.index.executables ∧ ∀ s, id ∉ g.index.members s := by
  rw [topLevel, List.mem_filter, Bool.not_eq_true', isMember_eq_false]

end Index

end AgentWorkflow
