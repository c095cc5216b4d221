import AgentWorkflow.Proofs.Compile.Expansion
import AgentWorkflow.Proofs.Program.Scope

/-!
The names of parts.

The code of a part uses the names of the parts that it demands and names that it binds itself. What it binds
are names of its own node, so a name tells the part that it is of.
-/

namespace AgentWorkflow

/-- Whether a part binds names of its node in a role. -/
def Part.BindsIn (part : Part) (role : NameRole) : Prop :=
  match part with
  | .construction => role ≠ .tool ∧ role ≠ .client
  | .wrapper | .customTool => role = .tool
  | .client => role = .client

theorem Toolbox.function_mem_reservedNames {t : Toolbox} {id function : String} {custom : CustomCode}
    (h : t.get? id = some custom) (hf : custom.function = some function) : function ∈ t.reservedNames :=
  List.mem_append_right _ (List.mem_filterMap.mpr ⟨_, Entries.mem_of_get? h, hf⟩)

namespace Blueprint

open Code

variable {b : Blueprint} {id x : String} {place : Place} {late now : List String}

/-- The name by which other code uses a part. -/
def nameOf (b : Blueprint) (q : Demand) : String :=
  match q.part with
  | .construction => b.instanceName q.id
  | .wrapper => b.nameIn q.id .tool
  | .client => b.nameIn q.id .client
  | .customTool => b.functionOf q.id

section Graph

variable {builder name : String} {members : List String} {limits : List Limit}

theorem bindsAll_graphContent : bindsAll (b.graphContent builder name members limits) = [builder, name] := by
  have hsteps {α : Type} (l : List α) (f : α → Code) (h : ∀ a, (f a).binds = []) : bindsAll (l.map f) = [] := by
    refine bindsAll_eq_nil fun c hc => ?_
    obtain ⟨a, -, rfl⟩ := List.mem_map.mp hc
    exact h a
  simp only [graphContent, List.cons_append, bindsAll, bindsAll_append]
  rw [hsteps _ _ fun _ => rfl, hsteps _ _ fun _ => rfl, hsteps _ _ fun _ => rfl, hsteps _ _ fun _ => rfl]
  rfl

theorem resolvesAll_graphContent (h : ∀ m ∈ members, b.instanceName m ∈ now) :
    resolvesAll late now (b.graphContent builder name members limits) = true := by
  unfold graphContent
  dsimp only
  simp only [List.cons_append]
  rw [resolvesAll]
  refine Bool.and_eq_true_iff.mpr ⟨rfl, resolvesAll_of_forall fun c hc => ?_⟩
  simp only [List.mem_append, List.mem_map, List.mem_singleton] at hc
  rcases hc with (((⟨m, hm, rfl⟩ | ⟨_, -, rfl⟩) | ⟨_, -, rfl⟩) | ⟨_, -, rfl⟩) | rfl
  · simp [resolves, reads, binds, h m hm]
  all_goals simp [resolves, reads, binds]

end Graph

section Content

theorem kindOf_isExecutable (h : ∃ n, b.index.node? id = some n ∧ n.kind.isExecutable = true) :
    (b.kindOf id).isExecutable = true := by
  obtain ⟨n, hn, hk⟩ := h
  rwa [kindOf_eq hn]

theorem resolvesAll_agentContent {settings : AgentSettings} {delegates : List String}
    {coordination : Option String} (ht : ∀ q ∈ b.toolDemands id, b.nameOf q ∈ now) (hd : delegates ⊆ now) :
    resolvesAll late now (b.agentContent id settings delegates coordination) = true := by
  have hreads : ∀ x ∈ (b.toolEntries id delegates).filterMap ToolEntry.read?, x ∈ now := by
    intro x hx
    obtain ⟨e, he, hx⟩ := List.mem_filterMap.mp hx
    rcases mem_toolEntries he with ⟨a, ha, rfl⟩ | ⟨name, hn, rfl⟩
    · cases a with
      | builtin symbol => cases hx
      | custom t =>
        obtain rfl := Option.some.inj hx
        exact ht _ (List.mem_filterMap.mpr ⟨_, ha, rfl⟩)
      | server t client =>
        obtain rfl := Option.some.inj hx
        exact ht _ (List.mem_filterMap.mpr ⟨_, ha, rfl⟩)
    · obtain rfl := Option.some.inj hx
      exact hd hn
  simp only [agentContent, resolvesAll, resolves, reads, binds, Bool.and_eq_true, List.all_eq_true]
  refine ⟨by simp, fun x hx => List.contains_iff_mem.mpr (List.mem_append.mpr ?_), trivial⟩
  rcases List.mem_cons.mp hx with rfl | hx
  · exact Or.inr (List.mem_singleton_self _)
  · exact Or.inl (hreads x hx)

theorem mem_of_entryMember {settings : SwarmSettings} (h : b.entryMember id settings = some x) :
    x ∈ (b.index.members id).map b.instanceName := by
  obtain ⟨wanted, -, h⟩ := Option.bind_eq_some_iff.mp h
  obtain ⟨⟨m, name⟩, hf, rfl⟩ := Option.map_eq_some_iff.mp h
  exact (List.of_mem_zip (List.mem_of_find?_eq_some hf)).2

theorem resolvesAll_content (place : Place) (h : ∀ q ∈ b.contentDemands id place, b.nameOf q ∈ now) :
    resolvesAll late now (b.content id) = true := by
  cases hk : b.kindOf id with
  | agent settings =>
    simp only [contentDemands, hk] at h
    simp only [content, hk]
    exact resolvesAll_agentContent h (List.nil_subset _)
  | orchestrator settings =>
    simp only [contentDemands, hk] at h
    simp only [content, hk]
    refine resolvesAll_agentContent (fun q hq => h q (List.mem_append_right _ hq)) fun x hx => ?_
    obtain ⟨m, hm, rfl⟩ := List.mem_map.mp hx
    exact h ⟨m, b.dependencyPlace m place, .wrapper⟩ (List.mem_append_left _ (List.mem_map.mpr ⟨m, hm, rfl⟩))
  | swarm settings =>
    simp only [contentDemands, hk] at h
    have hmem (x : String) (hx : x ∈ (b.index.members id).map b.instanceName) : x ∈ now := by
      obtain ⟨m, hm, rfl⟩ := List.mem_map.mp hx
      exact h ⟨m, b.memberPlace m place, .construction⟩ (List.mem_map.mpr ⟨m, hm, rfl⟩)
    simp only [content, hk, resolvesAll_singleton, resolves, reads, List.all_eq_true]
    intro x hx
    refine List.contains_iff_mem.mpr (hmem x ?_)
    rcases List.mem_append.mp hx with hx | hx
    · exact hx
    · exact mem_of_entryMember (Option.mem_toList.mp hx)
  | container settings =>
    simp only [contentDemands, hk] at h
    simp only [content, hk]
    exact resolvesAll_graphContent fun m hm =>
      h ⟨m, b.memberPlace m place, .construction⟩ (List.mem_map.mpr ⟨m, hm, rfl⟩)
  | _ =>
    simp only [content, hk]
    rfl

theorem bindsAll_agentContent {settings : AgentSettings} {delegates : List String} {coordination : Option String} :
    bindsAll (b.agentContent id settings delegates coordination) = [b.nameIn id .model, b.nameIn id .agent] := rfl

theorem mem_bindsAll_content (h : x ∈ bindsAll (b.content id)) :
    ∃ role, x = b.nameIn id role ∧ role ≠ .tool ∧ role ≠ .client := by
  unfold content at h
  split at h <;> rename_i hk
  · rcases List.mem_pair.mp h with rfl | rfl
    · exact ⟨.model, rfl, by decide⟩
    · exact ⟨.agent, rfl, by decide⟩
  · rcases List.mem_pair.mp h with rfl | rfl
    · exact ⟨.model, rfl, by decide⟩
    · exact ⟨.agent, rfl, by decide⟩
  · obtain rfl := List.mem_singleton.mp h
    exact ⟨.swarm, by rw [instanceName, hk]; rfl, by decide⟩
  · rw [bindsAll_graphContent] at h
    rcases List.mem_pair.mp h with rfl | rfl
    · exact ⟨.builder, rfl, by decide⟩
    · exact ⟨.graph, rfl, by decide⟩
  · cases h

theorem instanceName_mem_bindsAll (hex : (b.kindOf id).isExecutable = true) :
    b.instanceName id ∈ bindsAll (b.content id) := by
  unfold instanceName content
  split <;> rename_i hk
  · rw [hk, bindsAll_agentContent]
    exact List.mem_pair.mpr (Or.inr rfl)
  · rw [hk, bindsAll_agentContent]
    exact List.mem_pair.mpr (Or.inr rfl)
  · rw [instanceName, hk]
    exact List.mem_singleton_self _
  · rw [hk, bindsAll_graphContent]
    exact List.mem_pair.mpr (Or.inr rfl)
  · cases hkind : b.kindOf id <;> simp_all [NodeKind.isExecutable]

theorem exists_reads_content {q : Demand} (h : q ∈ b.contentDemands id place)
    (hq : q.part = .construction ∨ q.part = .wrapper) : ∃ c ∈ b.content id, b.nameOf q ∈ c.reads := by
  have htools : q ∉ b.toolDemands id := by
    intro ht
    rcases mem_toolDemands ht with ⟨t, -, rfl⟩ | ⟨t, _, -, rfl⟩ <;> simp at hq
  cases hk : b.kindOf id with
  | agent settings =>
    simp only [contentDemands, hk] at h
    exact absurd h htools
  | orchestrator settings =>
    simp only [contentDemands, hk] at h
    simp only [content, hk]
    obtain ⟨m, hm, rfl⟩ := List.mem_map.mp ((List.mem_append.mp h).resolve_right htools)
    refine ⟨_, List.mem_cons_of_mem _ (List.mem_singleton_self _), List.mem_cons_of_mem _ ?_⟩
    refine List.mem_filterMap.mpr ⟨.delegate (b.nameIn m .tool), ?_, rfl⟩
    exact delegate_mem_toolEntries (List.mem_map.mpr ⟨m, hm, rfl⟩)
  | swarm settings =>
    simp only [contentDemands, hk] at h
    simp only [content, hk]
    obtain ⟨m, hm, rfl⟩ := List.mem_map.mp h
    exact ⟨_, List.mem_singleton_self _, List.mem_append_left _ (List.mem_map.mpr ⟨m, hm, rfl⟩)⟩
  | container settings =>
    simp only [contentDemands, hk] at h
    simp only [content, hk]
    obtain ⟨m, hm, rfl⟩ := List.mem_map.mp h
    refine ⟨.addNode (b.nameIn id .builder) (b.instanceName m) (b.identOf m), ?_, by simp [reads, nameOf]⟩
    simp only [graphContent, List.mem_cons, List.mem_append, List.mem_map]
    exact Or.inl (Or.inl (Or.inl (Or.inl (Or.inr ⟨m, hm, rfl⟩))))
  | _ => simp [contentDemands, hk] at h

end Content

section Part

variable {servers : List String} {q : Demand} {inside : List Fragment}

theorem nameOf_eq (hq : q.part = .construction ∨ q.part = .wrapper) :
    ∃ role, b.nameOf q = b.nameIn q.id role ∧ q.part.BindsIn role := by
  unfold nameOf
  rcases hq with hq | hq <;> rw [hq]
  · refine ⟨(b.kindOf q.id).instanceRole, rfl, ?_⟩
    cases b.kindOf q.id <;> simp [Part.BindsIn, NodeKind.instanceRole]
  · exact ⟨.tool, rfl, rfl⟩

theorem mem_bindsAll_customContent (h : x ∈ bindsAll (b.customContent id)) :
    x = b.nameIn id .tool ∨ x ∈ b.toolbox.reservedNames := by
  unfold customContent at h
  split at h
  · cases h
  · rename_i custom hc
    split at h
    · rename_i function hf
      have hx : x = function := by
        split_ifs at h <;> simpa [bindsAll, binds] using h
      exact Or.inr (hx ▸ Toolbox.function_mem_reservedNames hc hf)
    · exact Or.inl (List.mem_singleton.mp h)

theorem mem_bindsAll_part (h : x ∈ bindsAll (b.fragmentOf inside q).code) :
    (∃ role, x = b.nameIn q.id role ∧ q.part.BindsIn role) ∨ x ∈ b.toolbox.reservedNames := by
  unfold fragmentOf at h
  split at h <;> rename_i hq <;> rw [hq]
  · obtain ⟨role, hx, hr⟩ := mem_bindsAll_content h
    exact Or.inl ⟨role, hx, hr⟩
  · exact Or.inl ⟨.tool, List.mem_singleton.mp h, rfl⟩
  · unfold clientContent at h
    split at h
    · exact Or.inl ⟨.client, List.mem_singleton.mp h, rfl⟩
    · cases h
  · exact (mem_bindsAll_customContent h).imp (fun hx => ⟨.tool, hx, rfl⟩) id

theorem nameOf_mem_bindsAll (hb : b.Coherent) (hp : b.Placed servers q) :
    b.nameOf q ∈ bindsAll (b.fragmentOf inside q).code := by
  unfold nameOf fragmentOf
  cases hq : q.part with
  | construction => exact instanceName_mem_bindsAll (kindOf_isExecutable (hp.executable (Or.inl hq)))
  | wrapper => exact List.mem_singleton_self _
  | client =>
    obtain ⟨-, x, hx⟩ := hp.server hq
    obtain ⟨n, settings, hn, hk⟩ := exists_server (isServer_of_ownServers hx)
    simp only [clientContent, kindOf_eq hn, hk]
    exact List.mem_singleton_self _
  | customTool =>
    obtain ⟨-, n, s, hn, hk⟩ := hp.custom hq
    obtain ⟨custom, hc⟩ := hb.custom hn hk
    simp only [customContent, functionOf, hc, Option.bind_some]
    cases hf : custom.function with
    | none => exact List.mem_singleton_self _
    | some function => exact List.mem_cons_self

theorem Placed.exists_node (hp : b.Placed servers q) :
    ∃ n, b.index.node? q.id = some n ∧ SymbolTable.needsSymbol n.kind = true := by
  cases hq : q.part with
  | client =>
    obtain ⟨-, x, hx⟩ := hp.server hq
    obtain ⟨n, settings, hn, hk⟩ := exists_server (isServer_of_ownServers hx)
    exact ⟨n, hn, by rw [hk]; rfl⟩
  | customTool =>
    obtain ⟨-, n, s, hn, hk⟩ := hp.custom hq
    exact ⟨n, hn, by rw [hk]; rfl⟩
  | _ =>
    obtain ⟨n, hn, hk⟩ := hp.executable (by simp [hq])
    exact ⟨n, hn, needsSymbol_of_isExecutable hk⟩

/-- The name of an executable's part is bound by no other part. -/
theorem eq_of_nameOf_mem_bindsAll (hb : b.Coherent) (hp : b.Placed servers q) {n : Demand}
    (hn : ∃ m, b.index.node? n.id = some m ∧ m.kind.isExecutable = true)
    (hpart : n.part = .construction ∨ n.part = .wrapper)
    (h : b.nameOf n ∈ bindsAll (b.fragmentOf inside q).code) : q.id = n.id ∧ q.part = n.part := by
  obtain ⟨role, hrole, hbinds⟩ := nameOf_eq (b := b) hpart
  obtain ⟨m, hm, hk⟩ := hn
  rw [hrole] at h
  rcases mem_bindsAll_part h with ⟨role', he, hbinds'⟩ | hres
  · obtain ⟨m', hm', hk'⟩ := hp.exists_node
    obtain ⟨hid, rfl⟩ := hb.nameIn_inj hm (needsSymbol_of_isExecutable hk) hm' hk' he
    refine ⟨hid.symm, ?_⟩
    rcases hpart with hpart | hpart <;> rw [hpart] at hbinds ⊢
    · cases hq : q.part with
      | construction => rfl
      | client =>
        rw [hq] at hbinds'
        exact absurd hbinds' hbinds.2
      | _ =>
        rw [hq] at hbinds'
        exact absurd hbinds' hbinds.1
    · obtain rfl : role = .tool := hbinds
      cases hq : q.part with
      | construction =>
        rw [hq] at hbinds'
        exact absurd rfl hbinds'.1
      | wrapper => rfl
      | client =>
        rw [hq] at hbinds'
        cases hbinds'
      | customTool =>
        -- Its name could be that of a wrapper, but its node is no executable.
        obtain ⟨-, m', s, hm', hs⟩ := hp.custom hq
        rw [← hid, hm] at hm'
        obtain rfl := Option.some.inj hm'
        simp [hs, NodeKind.isExecutable] at hk
  · exact absurd hres (hb.name_free (hb.name?_eq hm (needsSymbol_of_isExecutable hk) role)).1

theorem resolves_placeholder {n : Node} {function code : String} :
    resolves late now (placeholder n function code) = true := by
  unfold placeholder
  rw [resolves]
  refine resolvesAll_of_forall fun c hc => ?_
  rcases List.mem_append.mp hc with hc | hc
  · obtain ⟨text, -, rfl⟩ := List.mem_map.mp hc
    rfl
  · obtain rfl := List.mem_singleton.mp hc
    rfl

theorem resolvesAll_part (hq : q.part ≠ .wrapper) (h : ∀ n ∈ b.demandsOf q, b.nameOf n ∈ now) :
    resolvesAll late now (b.fragmentOf inside q).code = true := by
  unfold demandsOf at h
  unfold fragmentOf
  cases hpart : q.part with
  | construction =>
    rw [hpart] at h
    exact resolvesAll_content q.place h
  | wrapper => exact absurd hpart hq
  | client =>
    change resolvesAll late now (b.clientContent q.id) = true
    unfold clientContent
    split <;> rfl
  | customTool =>
    change resolvesAll late now (b.customContent q.id) = true
    unfold customContent
    split
    · rfl
    · split
      · split_ifs <;> simp [resolvesAll, resolves, reads, binds]
      · rw [resolvesAll_singleton]
        exact resolves_placeholder

end Part

end Blueprint

end AgentWorkflow
