import AgentWorkflow.Proofs.Compile.Generation

/-!
When a compilation succeeds.

Main statement: with the standard expanders a compilation succeeds exactly if the graph is valid and
buildable: attached tools exist, attached servers can be started, and compositions have the members they
need. A valid graph that is not buildable fails with the error that says so, and the nesting of expansions
stays within its bound.
-/

namespace AgentWorkflow

open Relation

/-- What a valid graph needs so that a program can be made of it. -/
structure Graph.IsBuildable (g : Graph) : Prop where
  /-- The tools attached to agents and orchestrators exist. -/
  tools : ∀ e ∈ g.edges, g.verdict e = .role .toolAttachment → ∀ n ∈ g.nodes, n.id = e.target →
    n.kind.agent?.isSome = true → (g.node? e.source).isSome = true
  /-- The servers attached to executables can be started. -/
  servers : ∀ e ∈ g.edges, g.verdict e = .role .toolAttachment → ∀ n ∈ g.nodes, n.id = e.source →
    ∀ s, n.kind = .server s → s.fault? = none
  /-- Swarms have members, which are agents or orchestrators. -/
  swarms : ∀ n ∈ g.nodes, ∀ s, n.kind = .swarm s →
    (∃ e ∈ g.edges, g.verdict e = .role .membership ∧ e.source = n.id) ∧
      ∀ e ∈ g.edges, g.verdict e = .role .membership → e.source = n.id →
        ∀ m ∈ g.nodes, m.id = e.target → m.kind.isTeammate = true
  /-- Containers have members. -/
  containers : ∀ n ∈ g.nodes, ∀ s, n.kind = .container s →
    ∃ e ∈ g.edges, g.verdict e = .role .membership ∧ e.source = n.id

namespace Blueprint

section Owners

variable {b : Blueprint} {first : List Demand} {root : Option String}

/-- An executable's instance is constructed, for itself or for the function that wraps it. -/
def IsOwned (b : Blueprint) (first : List Demand) (id : String) : Prop :=
  ∃ q, b.Demanded first q ∧ q.id = id ∧ (q.part = .construction ∨ q.part = .wrapper)

theorem IsOwned.demanded_content {id : String} (h : b.IsOwned first id) :
    ∃ place, ∀ q ∈ b.contentDemands id place, b.Demanded first q := by
  obtain ⟨p, hp, rfl, hc | hw⟩ := h
  · exact ⟨p.place, fun q hq => .step hp (by simpa [demandsOf, hc] using hq)⟩
  · exact ⟨b.innerPlace p.id, fun q hq => .step hp (by simpa [demandsOf, hw] using Or.inl hq)⟩

theorem IsOwned.member {id m : String} (h : b.IsOwned first id) (hk : (b.kindOf id).isComposite = true)
    (hm : m ∈ b.index.members id) : b.IsOwned first m := by
  obtain ⟨place, hplace⟩ := h.demanded_content
  cases hkind : b.kindOf id with
  | orchestrator settings =>
    refine ⟨_, hplace ⟨m, b.dependencyPlace m place, .wrapper⟩ ?_, rfl, Or.inr rfl⟩
    simp only [contentDemands, hkind]
    exact List.mem_append_left _ (List.mem_map.mpr ⟨m, hm, rfl⟩)
  | swarm settings =>
    refine ⟨_, hplace ⟨m, b.memberPlace m place, .construction⟩ ?_, rfl, Or.inl rfl⟩
    simp only [contentDemands, hkind]
    exact List.mem_map.mpr ⟨m, hm, rfl⟩
  | container settings =>
    refine ⟨_, hplace ⟨m, b.memberPlace m place, .construction⟩ ?_, rfl, Or.inl rfl⟩
    simp only [contentDemands, hkind]
    exact List.mem_map.mpr ⟨m, hm, rfl⟩
  | _ => simp [hkind, NodeKind.isComposite] at hk

theorem mem_runs_or_idle (root : Option String) {id : String} (h : id ∈ b.index.topLevel) : id ∈ b.runs root ∨ id ∈ b.idle root := by
  cases root with
  | none => exact Or.inl h
  | some r =>
    by_cases hr : id = r
    · exact Or.inl (List.mem_singleton.mpr hr)
    · exact Or.inr (List.mem_filter.mpr ⟨h, by simpa using hr⟩)

theorem isOwned_topLevel {id : String} (h : id ∈ b.index.topLevel) : b.IsOwned (b.agenda root) id := by
  rcases mem_runs_or_idle root h with hr | hi
  · exact ⟨_, .first (mem_agenda.mpr (Or.inl ⟨id, hr, rfl⟩)), rfl, Or.inl rfl⟩
  · refine ⟨_, .first (mem_agenda.mpr (Or.inr (Or.inl ⟨id, hi, rfl⟩))), rfl, ?_⟩
    unfold idleDemand
    split_ifs
    · exact Or.inr rfl
    · exact Or.inl rfl

theorem demanded_client {id s : String} (h : id ∈ b.index.topLevel) (hs : s ∈ b.closures.servers id) :
    b.Demanded (b.agenda root) ⟨s, .topLevel, .client⟩ := by
  rcases mem_runs_or_idle root h with hr | hi
  · exact .first (mem_agenda.mpr (Or.inr (Or.inr ⟨s, Index.mem_union.mpr ⟨id, hr, hs⟩, rfl⟩)))
  · have hn : b.closures.needsScope id = true := by
      simpa [Closures.needsScope] using List.ne_nil_of_mem hs
    have hd : b.Demanded (b.agenda root) ⟨id, .topLevel, .wrapper⟩ := by
      have := Demanded.first (b := b) (mem_agenda.mpr (Or.inr (Or.inl ⟨id, hi, rfl⟩)) :
        b.idleDemand id ∈ b.agenda root)
      rwa [idleDemand, if_pos hn] at this
    refine .step hd (List.mem_append_right _ ?_)
    simp only [opens, Place.isScoped, hn, Bool.not_false, Bool.and_self, if_true]
    exact List.mem_map.mpr ⟨s, hs, rfl⟩

end Owners

section Graph

variable {g : Graph} {root : Option String}

theorem isOwned_of_executable (hac : g.index.IsAcyclic) (root : Option String) {id : String}
    (h : id ∈ g.index.executables) :
    (g.index.blueprint root).IsOwned ((g.index.blueprint root).agenda root) id := by
  obtain ⟨top, ht, hr⟩ := Index.exists_topLevel hac h
  induction hr with
  | refl => exact isOwned_topLevel ht
  | tail _ hm ih =>
    obtain ⟨n, hn, hc⟩ := (Index.kinds_of_mem_members hm).1
    refine (ih (Index.mem_executables_of_node? hn (Index.isExecutable_of_isComposite hc))).member ?_ hm
    rwa [kindOf_eq (b := g.index.blueprint root) hn]

theorem demanded_client_of_attached (hac : g.index.IsAcyclic) (root : Option String) {s x : String}
    (hs : s ∈ g.index.ownServers x) :
    (g.index.blueprint root).Demanded ((g.index.blueprint root).agenda root) ⟨s, .topLevel, .client⟩ := by
  obtain ⟨n, hn, hexec⟩ := (Index.kinds_of_mem_tools (List.mem_filter.mp hs).1).2
  obtain ⟨top, htop, hr⟩ := Index.exists_topLevel hac (Index.mem_executables_of_node? hn hexec)
  have hclosed : s ∈ g.index.closures.servers top :=
    (Index.mem_servers hac (Index.mem_topLevel.mp htop).1).mpr ⟨x, hr, hs⟩
  exact demanded_client htop hclosed

theorem hasMember_of_edge (id : String) : (g.index.members id ≠ []) ↔
    ∃ e ∈ g.edges, g.verdict e = .role .membership ∧ e.source = id := by
  constructor
  · intro h
    obtain ⟨m, hm⟩ := List.exists_mem_of_ne_nil _ h
    obtain ⟨e, he, hv, hs, -⟩ := Index.mem_members_iff_edge.mp hm
    exact ⟨e, he, hv, hs⟩
  · rintro ⟨e, he, hv, hs⟩
    exact List.ne_nil_of_mem (Index.mem_members_iff_edge.mpr ⟨e, he, hv, hs, rfl⟩)

theorem exists_mem_nodes {id : String} (hk : ((g.index.blueprint root).kindOf id).isInput = false) :
    ∃ n ∈ g.nodes, n.id = id ∧ n.kind = (g.index.blueprint root).kindOf id := by
  have hn := node?_of_kind hk
  obtain ⟨hmem, hid⟩ := Graph.mem_of_node? hn
  exact ⟨_, hmem, hid, (kindOf_eq hn).symm⟩

section Fits

variable (h : g.IsBuildable)

include h

theorem hasTools_of_isBuildable {id : String}
    (hk : ((g.index.blueprint root).kindOf id).agent?.isSome = true) (hi : ((g.index.blueprint root).kindOf id).isInput = false) :
    (g.index.blueprint root).HasTools id := by
  obtain ⟨n, hn, hid, hkn⟩ := exists_mem_nodes hi
  intro t ht
  obtain ⟨e, he, hv, rfl, het⟩ := Index.mem_tools_iff_edge.mp ht
  exact h.tools e he hv n hn (hid.trans het.symm) (hkn ▸ hk)

theorem members_of_isBuildable_swarm {id : String} {settings : SwarmSettings}
    (hk : (g.index.blueprint root).kindOf id = .swarm settings) :
    g.index.members id ≠ [] ∧
      ∀ m ∈ g.index.members id, ((g.index.blueprint root).kindOf m).isTeammate = true := by
  obtain ⟨n, hn, rfl, hkn⟩ := exists_mem_nodes (by rw [hk]; rfl)
  obtain ⟨hne, hteam⟩ := h.swarms n hn settings (hkn.trans hk)
  refine ⟨(hasMember_of_edge n.id).mpr hne, fun m hm => ?_⟩
  obtain ⟨e, he, hv, hs, rfl⟩ := Index.mem_members_iff_edge.mp hm
  obtain ⟨m, hm, -⟩ := (Index.kinds_of_mem_members hm).2
  obtain ⟨hmem, hid⟩ := Graph.mem_of_node? hm
  rw [kindOf_eq (b := g.index.blueprint root) hm]
  exact hteam e he hv hs m hmem hid

theorem fault?_of_isBuildable {id x : String} {settings : ServerSettings}
    (hk : (g.index.blueprint root).kindOf id = .server settings) (hx : id ∈ g.index.tools x) :
    settings.fault? = none := by
  obtain ⟨n, hn, rfl, hkn⟩ := exists_mem_nodes (by rw [hk]; rfl)
  obtain ⟨e, he, hv, hs, -⟩ := Index.mem_tools_iff_edge.mp hx
  exact h.servers e he hv n hn hs.symm settings (hkn.trans hk)

/-- In a buildable graph everything fits that has a place. -/
theorem fits_of_isBuildable {servers : List String} {q : Demand}
    (hq : (g.index.blueprint root).Placed servers q) : (g.index.blueprint root).Fits q.id := by
  unfold Fits
  cases hk : (g.index.blueprint root).kindOf q.id with
  | agent settings => exact hasTools_of_isBuildable h (by rw [hk]; rfl) (by rw [hk]; rfl)
  | orchestrator settings => exact hasTools_of_isBuildable h (by rw [hk]; rfl) (by rw [hk]; rfl)
  | swarm settings => exact members_of_isBuildable_swarm h hk
  | container settings =>
    obtain ⟨n, hn, hid, hkn⟩ := exists_mem_nodes (by rw [hk]; rfl)
    exact hid ▸ (hasMember_of_edge n.id).mpr (h.containers n hn settings (hkn.trans hk))
  | server settings =>
    -- A server that has a place is a client: other parts are of other kinds.
    obtain ⟨x, hx⟩ : ∃ x, q.id ∈ g.index.ownServers x := by
      cases hp : q.part with
      | client => exact (hq.server hp).2
      | customTool =>
        obtain ⟨-, m, s, hm, hs⟩ := hq.custom hp
        simp [kindOf_eq hm, hs] at hk
      | _ =>
        obtain ⟨m, hm, hex⟩ := hq.executable (by simp [hp])
        rw [kindOf_eq hm] at hk
        simp [hk, NodeKind.isExecutable] at hex
    exact fault?_of_isBuildable h hk (List.mem_filter.mp hx).1
  | _ => trivial

end Fits

section Buildable

variable (ids : g.HasUniqueIds) (hac : g.index.IsAcyclic)
  (h : ∀ q, (g.index.blueprint root).Demanded ((g.index.blueprint root).agenda root) q →
    (g.index.blueprint root).Fits q.id)

include ids hac h

theorem fits_of_mem_nodes {n : Node} (hn : n ∈ g.nodes) (hk : n.kind.isExecutable = true) :
    (g.index.blueprint root).Fits n.id := by
  obtain ⟨q, hq, hid, -⟩ := isOwned_of_executable hac root
    (Index.mem_executables_of_node? (ids.node?_eq_some.mpr ⟨hn, rfl⟩) hk)
  exact hid ▸ h q hq

theorem fits_of_attached {n : Node} (hn : n ∈ g.nodes) {s : ServerSettings} (hk : n.kind = .server s) {id : String}
    (ht : n.id ∈ g.index.tools id) : (g.index.blueprint root).Fits n.id := by
  have hnode : g.index.node? n.id = some n := ids.node?_eq_some.mpr ⟨hn, rfl⟩
  have hs : g.index.isServer n.id = true := by
    rw [Index.isServer, hnode, Option.any_some, hk]
    rfl
  exact h _ (demanded_client_of_attached hac root (List.mem_filter.mpr ⟨ht, hs⟩))

/-- A graph is buildable in which everything fits that is demanded. -/
theorem isBuildable_of_fits : g.IsBuildable := by
  have kind {n : Node} (hn : n ∈ g.nodes) : (g.index.blueprint root).kindOf n.id = n.kind :=
    kindOf_eq (ids.node?_eq_some.mpr ⟨hn, rfl⟩)
  constructor
  · intro e he hv n hn hid hk
    have ht : e.source ∈ g.index.tools n.id := Index.mem_tools_iff_edge.mpr ⟨e, he, hv, rfl, hid.symm⟩
    cases hkn : n.kind with
    | agent settings =>
      have hf := fits_of_mem_nodes ids hac h hn (by rw [hkn]; rfl)
      simp only [Fits, kind hn, hkn] at hf
      exact hf _ ht
    | orchestrator settings =>
      have hf := fits_of_mem_nodes ids hac h hn (by rw [hkn]; rfl)
      simp only [Fits, kind hn, hkn] at hf
      exact hf _ ht
    | _ => simp [hkn, NodeKind.agent?] at hk
  · intro e he hv n hn hid s hk
    have hf := fits_of_attached ids hac h hn hk (Index.mem_tools_iff_edge.mpr ⟨e, he, hv, hid.symm, rfl⟩)
    simp only [Fits, kind hn, hk] at hf
    exact hf
  · intro n hn s hk
    have hf := fits_of_mem_nodes ids hac h hn (by rw [hk]; rfl)
    simp only [Fits, kind hn, hk] at hf
    refine ⟨(hasMember_of_edge n.id).mp hf.1, fun e he hv hs m hm hid => ?_⟩
    have := hf.2 m.id (Index.mem_members_iff_edge.mpr ⟨e, he, hv, hs, hid.symm⟩)
    rwa [kind hm] at this
  · intro n hn s hk
    have hf := fits_of_mem_nodes ids hac h hn (by rw [hk]; rfl)
    simp only [Fits, kind hn, hk] at hf
    exact (hasMember_of_edge n.id).mp hf

end Buildable

end Graph

end Blueprint

theorem CompileError.cases_of_not_internal {e : CompileError} (h : e.isInternal = false) :
    (∃ consumer missing, e = .missingTool consumer missing) ∨
      (∃ server fault, e = .badServer server fault) ∨ ∃ node fault, e = .badComposition node fault := by
  cases e with
  | missingTool consumer missing => exact Or.inl ⟨consumer, missing, rfl⟩
  | badServer server fault => exact Or.inr (Or.inl ⟨server, fault, rfl⟩)
  | badComposition node fault => exact Or.inr (Or.inr ⟨node, fault, rfl⟩)
  | internal fault => cases h

namespace Compilation

variable {g : Graph} {options : Options}

theorem compile_of_invalid (h : g.index.validate.valid = false) :
    (Compilation.mk g options .standard).compile.isSuccess = false := by
  have hne : g.index.problems ≠ [] := by simpa [Index.validate] using h
  simp [compile, compileNoted, validate, Output.failed, Output.isSuccess, Index.validate, hne]

theorem compile_of_generate {c : Compilation} {gen : Generated} {d : Draft} (hg : c.generate = (.ok gen, d))
    (h : c.validate.valid = true) : c.compile = .succeeded c.validate gen := by
  simp only [compile, compileNoted, if_pos h, hg]

theorem compile_of_ok (h : g.index.validate.valid = true) {gen : Generated} {d : Draft}
    (hg : (Compilation.mk g options .standard).generate = (.ok gen, d)) :
    (Compilation.mk g options .standard).compile = .succeeded g.index.validate gen :=
  compile_of_generate hg h

theorem compile_of_error (h : g.index.validate.valid = true) {f : Failure} {d : Draft}
    (hg : (Compilation.mk g options .standard).generate = (.error f, d)) :
    (Compilation.mk g options .standard).compile =
      .failed g.index.validate [f.toError.message] := by
  simp [compile, compileNoted, validate, h, hg]

/-- The program that a compilation generates, if it succeeds. -/
def program? (c : Compilation) : Option Program :=
  if c.validate.valid then c.generate.1.toOption.map Generated.program else none

theorem exists_program {c : Compilation} (h : c.compile.isSuccess = true) :
    ∃ p, c.program? = some p ∧ c.compile.sourceText = p.text := by
  unfold compile compileNoted at h ⊢
  by_cases hv : c.validate.valid = true
  · simp only [program?, if_pos hv] at h ⊢
    cases hg : c.generate with
    | mk r d =>
      cases r with
      | error f => simp [hg, Output.failed, Output.isSuccess] at h
      | ok gen => exact ⟨gen.program, rfl, rfl⟩
  · have hne : c.validate.errors ≠ [] := by simpa [validate, Index.validate] using hv
    simp [hv, Output.failed, Output.isSuccess, hne] at h

theorem accounts_of_program? (ids : g.HasUniqueIds) {p : Program}
    (h : (Compilation.mk g options .standard).program? = some p) :
    ∃ root l, g.index.validate.valid = true ∧
      g.index.rootIn (g.index.effectiveMode options.mode) = .ok root ∧
      (∀ r, root = some r → r ∈ g.index.topLevel) ∧
      (g.index.blueprint root).Accounts root p (Compilation.mk g options .standard).generate.2 l := by
  unfold program? at h
  split_ifs at h with hv
  obtain ⟨root, hr, hroot, ⟨gen, d, l, hg, hacc⟩ | ⟨f, d, hg, -⟩⟩ := generate_standard ids hv options
  · rw [hg] at h ⊢
    obtain rfl := Option.some.inj h
    exact ⟨root, l, hv, hr, hroot, hacc⟩
  · rw [hg] at h
    cases h

/-- A compilation with the standard expanders succeeds exactly if the graph is valid and buildable. A valid
graph fails with one error, which names a missing tool, a server that cannot be started or a composition
without the members it needs; and expansions never nest beyond their bound. -/
theorem compile_isSuccess_iff (ids : g.HasUniqueIds) (options : Options) :
    let c := Compilation.mk g options .standard
    (c.compile.isSuccess = true ↔ c.validate.valid = true ∧ g.IsBuildable) ∧
      (c.validate.valid = true → c.compile.isSuccess = false →
        ∃ e, c.generate.1 = .error (.error e) ∧ c.compile.errors = [e.message] ∧
          ((∃ consumer missing, e = .missingTool consumer missing) ∨
            (∃ server fault, e = .badServer server fault) ∨
            ∃ node fault, e = .badComposition node fault)) ∧
      (c.validate.valid = true → c.generate.1 ≠ .error .crash) := by
  intro c
  cases hv : g.index.validate.valid with
  | false =>
    have hc : c.validate.valid = false := hv
    simp [hc, compile_of_invalid hv, c]
  | true =>
    have hc : c.validate.valid = true := hv
    have hac := Index.isAcyclic_of_valid ids hv
    obtain ⟨root, -, hroot, ⟨gen, d, l, hg, hacc⟩ | ⟨f, d, hg, hf⟩⟩ := generate_standard ids hv options
    · have hs : c.compile.isSuccess = true := by
        rw [compile_of_ok hv hg]
        rfl
      have hbuild : g.IsBuildable := Blueprint.isBuildable_of_fits ids hac fun q hq =>
        (hacc.sound.demanded (hacc.complete q hq)).2
      simp [hs, hc, hbuild, c, hg]
    · obtain ⟨e, rfl, hint, q, hq, hfit⟩ := hf
      have hs : c.compile.isSuccess = false := by
        rw [compile_of_error hv hg]
        rfl
      have hbuild : ¬g.IsBuildable := fun h => hfit (Blueprint.fits_of_isBuildable h
        (hq.placed (Blueprint.coherent ids hac root) ((runnable ids hv hroot).agenda
          (Blueprint.coherent ids hac root))))
      refine ⟨by simp [hs, hbuild], fun _ _ => ⟨e, by rw [hg], ?_, e.cases_of_not_internal hint⟩,
        fun _ => by rw [hg]; simp⟩
      rw [compile_of_error hv hg]
      rfl

end Compilation

/-- A lead of two orchestrators that share a third, whose agent uses a tool server. -/
def Graph.sharedTeam : Graph where
  nodes := [⟨"in", "Prompt", .input .default⟩, ⟨"r", "Lead", .orchestrator .default⟩,
    ⟨"p", "Planner", .orchestrator .default⟩, ⟨"q", "Reviewer", .orchestrator .default⟩,
    ⟨"m", "Editor", .orchestrator .default⟩, ⟨"n", "Writer", .agent .default⟩,
    ⟨"s", "Files", .server { ServerSettings.default with command := some "files" }⟩,
    ⟨"out", "Result", .output .default⟩]
  edges := [⟨"in", .output, "r", .userInput⟩, ⟨"r", .output, "out", .input⟩,
    ⟨"r", .subAgents, "p", .orchestratorInput⟩, ⟨"r", .subAgents, "q", .orchestratorInput⟩,
    ⟨"p", .subAgents, "m", .orchestratorInput⟩, ⟨"q", .subAgents, "m", .orchestratorInput⟩,
    ⟨"m", .subAgents, "n", .orchestratorInput⟩, ⟨"s", .toolOutput, "n", .tools⟩]

/-- A swarm without members that is fed a prompt. -/
def Graph.emptySwarm : Graph where
  nodes := [⟨"in", "Prompt", .input .default⟩, ⟨"t", "Team", .swarm .default⟩,
    ⟨"out", "Result", .output .default⟩]
  edges := [⟨"in", .output, "t", .userInput⟩, ⟨"t", .output, "out", .input⟩]

namespace Compilation

theorem sharedTeam_isBuildable_emptySwarm_fails :
    (Graph.sharedTeam.HasUniqueIds ∧ Graph.sharedTeam.IsBuildable) ∧
      Graph.emptySwarm.HasUniqueIds ∧ ¬Graph.emptySwarm.IsBuildable ∧
      ∃ e, (Compilation.ofGraph .emptySwarm).generate.1 = .error (.error e) ∧
        (Compilation.ofGraph .emptySwarm).compile.errors = [e.message] := by
  have ids : Graph.sharedTeam.HasUniqueIds := by decide
  have ids' : Graph.emptySwarm.HasUniqueIds := by decide
  have success : (Compilation.ofGraph .sharedTeam).compile.isSuccess = true := by decide +kernel
  have failure : (Compilation.ofGraph .emptySwarm).compile.isSuccess = false := by decide +kernel
  have valid : (Compilation.ofGraph .emptySwarm).validate.valid = true := by decide +kernel
  obtain ⟨iff, fails, -⟩ := compile_isSuccess_iff ids' .default
  refine ⟨⟨ids, ((compile_isSuccess_iff ids .default).1.mp success).2⟩, ids', fun h => ?_, ?_⟩
  · exact absurd (iff.mpr ⟨valid, h⟩) (by rw [Bool.not_eq_true]; exact failure)
  · obtain ⟨e, he, hm, -⟩ := fails valid failure
    exact ⟨e, he, hm⟩

end Compilation

end AgentWorkflow
