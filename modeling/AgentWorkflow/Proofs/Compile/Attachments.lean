import AgentWorkflow.Proofs.Compile.Listing

/-!
Which tools the agents of a program list.

Main statements: a tool that is attached to an agent or an orchestrator and does not exist stops the
compilation; and the agent of a node lists what is attached to the node and the functions that wrap its
members, and nothing else, each tool once unless another one has the same name.
-/

namespace AgentWorkflow

open Drafting

/-- The name of the agent that a piece of code constructs, and its list of tools. -/
def Code.equips? : Code → Option (String × List ToolEntry)
  | .agent name _ _ _ tools _ => some (name, tools)
  | _ => none

/-- The names of the agents that a program constructs, each with its list of tools. -/
def Program.equipped (p : Program) : List (String × List ToolEntry) :=
  p.pieces.filterMap Code.equips?

theorem NodeKind.isExecutable_of_agent? (kind : NodeKind) (h : kind.agent?.isSome = true) :
    kind.isExecutable = true := by
  cases kind <;> simp_all [agent?, isExecutable]

namespace Blueprint

variable {b : Blueprint} {id t : String} {tools : List ToolEntry} {name : String}

section Equipped

theorem equips?_graphContent {builder graph : String} {members : List String} {limits : List Limit} {c : Code}
    (h : c ∈ b.graphContent builder graph members limits) : c.equips? = none := by
  rcases mem_graphContent h with ⟨_, -, rfl⟩ | rfl | rfl | ⟨_, _, rfl⟩ | ⟨_, rfl⟩ | ⟨_, rfl⟩
  all_goals rfl

theorem equips?_content {c : Code} (h : c ∈ b.content id) (hc : c.equips? = some (name, tools)) :
    (b.kindOf id).agent?.isSome = true ∧ name = b.nameIn id .agent ∧
      tools = b.toolEntries id (b.delegates id) := by
  rcases mem_content h with ⟨_, rfl⟩ | ⟨hk, _, _, rfl⟩ | ⟨_, -, rfl⟩ | ⟨_, -, hg⟩
  · cases hc
  · obtain ⟨rfl, rfl⟩ := Prod.mk.inj (Option.some.inj hc)
    exact ⟨hk, rfl, rfl⟩
  · cases hc
  · rw [equips?_graphContent hg] at hc
    cases hc

theorem exists_equips (hk : (b.kindOf id).agent?.isSome = true) :
    ∃ c ∈ b.content id, c.equips? = some (b.nameIn id .agent, b.toolEntries id (b.delegates id)) := by
  unfold content delegates
  cases hkind : b.kindOf id with
  | agent settings => exact ⟨_, List.mem_cons_of_mem _ (List.mem_singleton_self _), rfl⟩
  | orchestrator settings => exact ⟨_, List.mem_cons_of_mem _ (List.mem_singleton_self _), rfl⟩
  | _ => simp [hkind, NodeKind.agent?] at hk

variable {root : Option String} {p : Program} {d : Draft} {l : Ledger} (hb : b.Coherent)
  (hacc : b.Accounts root p d l)

include hacc

theorem Accounts.hasTools (howned : b.IsOwned (b.agenda root) id) (hk : (b.kindOf id).agent?.isSome = true) :
    b.HasTools id := by
  obtain ⟨q, hq, rfl, -⟩ := howned
  have hfits := (hacc.sound.demanded (hacc.complete q hq)).2
  unfold Fits at hfits
  cases hkind : b.kindOf q.id <;> simp_all [NodeKind.agent?]

variable (ha : b.Agenda (b.runServers root) (b.agenda root))

include hb ha

/-- An agent is constructed for each agent and orchestrator, and each time with the same list of tools. -/
theorem Accounts.mem_equipped {n : Node} (hn : b.index.node? id = some n) (hex : n.kind.isExecutable = true)
    (howned : b.IsOwned (b.agenda root) id) (tools : List ToolEntry) : (b.nameIn id .agent, tools) ∈ p.equipped ↔
      n.kind.agent?.isSome = true ∧ tools = b.toolEntries id (b.delegates id) := by
  constructor
  · intro h
    obtain ⟨c, hc, hce⟩ := List.mem_filterMap.mp h
    have hcon : c.isBuilding = true := by
      cases c <;> simp_all [Code.equips?, Code.isBuilding]
    rcases hacc.exists_content hc hcon with ⟨q, hq, -, hcq⟩ | ⟨e, he, hce'⟩
    · obtain ⟨hkq, hname, rfl⟩ := equips?_content hcq hce
      have hnq : b.index.node? q.id = some (b.nodeOf q.id) := by
        refine node?_of_kind (b := b) ?_
        cases hkind : b.kindOf q.id <;> simp_all [NodeKind.agent?, NodeKind.isInput]
      -- Names tell nodes apart, so the demand is for the node itself.
      have hexq := needsSymbol_of_isExecutable ((b.kindOf q.id).isExecutable_of_agent? hkq)
      obtain ⟨rfl, -⟩ := hb.nameIn_inj hn (needsSymbol_of_isExecutable hex) hnq hexq hname
      exact ⟨kindOf_eq hn ▸ hkq, rfl⟩
    · cases root with
      | some r => cases he
      | none =>
        obtain rfl := List.mem_singleton.mp he
        rw [equips?_graphContent hce'] at hce
        cases hce
  · rintro ⟨hk, rfl⟩
    obtain ⟨q, hq, rfl, hpart⟩ := howned
    obtain ⟨c, hc, hce⟩ := exists_equips (b := b) (by rwa [kindOf_eq hn] : (b.kindOf q.id).agent?.isSome = true)
    exact List.mem_filterMap.mpr ⟨c, hacc.content_subset hb ha (hacc.complete q hq) hpart hc, hce⟩

end Equipped

end Blueprint

namespace Compilation

variable {g : Graph} {options : Options}

theorem notices_subset_warnings (h : (Compilation.mk g options .standard).compile.isSuccess = true) :
    (Toolbox.notices g.nodes).map ToolNotice.message ⊆
      (Compilation.mk g options .standard).compile.warnings := by
  obtain ⟨p, hp, -⟩ := exists_program h
  obtain ⟨hv, gen, d, hg, -⟩ := exists_generated hp
  have hwarnings := ((Index.generate_tells .empty).of_run hg).2
  rw [compile_of_ok hv hg]
  exact List.subset_append_of_subset_right _ (hwarnings ▸ List.subset_append_left _ _)

theorem sourceText_eq_empty {c : Compilation} (h : c.compile.isSuccess = false) : c.compile.sourceText = "" := by
  unfold compile compileNoted at h ⊢
  dsimp only at h ⊢
  split_ifs at h ⊢
  · split at h
    · cases h
    · rfl
  · rfl

/-- A tool that is attached to an agent or an orchestrator and does not exist stops the compilation. -/
theorem compile_fails_of_missing_tool (h : g.index.validate.valid = true) (options : Options) {e : Edge} {n : Node}
    (he : e ∈ g.edges) (hs : g.node? e.source = none) (ht : e.targetHandle = .tools)
    (hn : g.node? e.target = some n) (hk : n.kind.agent?.isSome = true) :
    (Compilation.mk g options .standard).compile.isSuccess = false ∧
      (Compilation.mk g options .standard).compile.sourceText = "" := by
  have hattached : e.source ∈ g.index.tools e.target := by
    refine Index.mem_tools_iff_edge.mpr ⟨e, he, ?_, rfl, rfl⟩
    have hexec : e.targetHandle = .tools ∧ n.kind.isExecutable = true := ⟨ht, n.kind.isExecutable_of_agent? hk⟩
    simp only [Graph.verdict, hs, hn, if_pos hexec]
  have hfails : (Compilation.mk g options .standard).compile.isSuccess = false := by
    by_contra hsuccess
    obtain ⟨p, root, l, -, -, -, -, -, hacc⟩ := exists_accounts (Bool.eq_true_of_not_eq_false hsuccess)
    have howned := Blueprint.isOwned_of_executable (Index.isAcyclic h) root
      (Index.mem_executables_of_node? hn (n.kind.isExecutable_of_agent? hk))
    have hexists := hacc.hasTools howned (by rwa [Blueprint.kindOf_eq (b := g.index.blueprint root) hn]) _ hattached
    rw [show (g.index.blueprint root).index.node? e.source = none from hs] at hexists
    cases hexists
  exact ⟨hfails, sourceText_eq_empty hfails⟩

end Compilation

/-- A swarm of one agent, and a tool that is attached to a node. -/
def Graph.writerTeam (tools : List Node) (tool target : String) : Graph where
  nodes := ⟨"in", "Prompt", .input .default⟩ :: ⟨"t", "Team", .swarm .default⟩ ::
    ⟨"a", "Writer", .agent .default⟩ :: ⟨"out", "Result", .output .default⟩ :: tools
  edges := [⟨"in", .output, "t", .userInput⟩, ⟨"t", .output, "out", .input⟩,
    ⟨"t", .subAgents, "a", .orchestratorInput⟩, ⟨tool, .toolOutput, target, .tools⟩]

/-- An agent alone, with tools. -/
def Graph.desk (tools : List Node) : Graph where
  nodes := ⟨"in", "Prompt", .input .default⟩ :: ⟨"a", "Writer", .agent .default⟩ ::
    ⟨"out", "Result", .output .default⟩ :: tools
  edges := ⟨"in", .output, "a", .userInput⟩ :: ⟨"a", .output, "out", .input⟩ ::
    tools.map fun n => ⟨n.id, .toolOutput, "a", .tools⟩

namespace Compilation

/-- A missing tool does not stop the compilation if it is attached to the swarm. -/
theorem missingTool_of_team_compiles :
    (Compilation.ofGraph (.writerTeam [] "ghost" "t")).validate.valid = true ∧
      ⟨"ghost", .toolOutput, "t", .tools⟩ ∈ (Graph.writerTeam [] "ghost" "t").edges ∧
      (Graph.writerTeam [] "ghost" "t").node? "ghost" = none ∧
      ((Graph.writerTeam [] "ghost" "t").node? "t").any (fun n => n.kind.isExecutable) = true ∧
      (Compilation.ofGraph (.writerTeam [] "ghost" "t")).compile.isSuccess = true ∧
      (Compilation.ofGraph (.writerTeam [] "ghost" "t")).program?.map Program.equipped =
        some [("writer_agent", [])] := by
  decide +kernel

/-- It stops the compilation if it is attached to the agent. -/
theorem missingTool_of_writer_fails :
    (Graph.writerTeam [] "ghost" "a").index.validate.valid = true ∧
      (Compilation.mk (.writerTeam [] "ghost" "a") .default .standard).compile.isSuccess = false ∧
      (Compilation.mk (.writerTeam [] "ghost" "a") .default .standard).compile.sourceText = "" := by
  have valid : (Graph.writerTeam [] "ghost" "a").index.validate.valid = true := by decide +kernel
  refine ⟨valid, ?_⟩
  exact compile_fails_of_missing_tool valid .default (e := ⟨"ghost", .toolOutput, "a", .tools⟩)
    (n := ⟨"a", "Writer", .agent .default⟩) (by decide) (by decide) rfl (by decide) rfl

end Compilation

/-- What holds of the list of tools of an agent that stands for a node. -/
structure Graph.Equips (g : Graph) (root : Option String) (warnings : List String) (id : String)
    (tools : List ToolEntry) : Prop where
  /-- A tool attached to the node is listed once, unless a warning names it for a function that it defines like
  another tool, or a custom tool and a tool of the library have its name. -/
  complete : ∀ e ∈ g.edges, g.verdict e = .role .toolAttachment → e.target = id →
    ∃ t entry, g.node? e.source = some t ∧ (g.index.blueprint root).listed? e.source = some entry ∧
      entry ∈ tools ∧
        ((tools.map ToolEntry.expression).count entry.expression = 1 ∨
          (∃ previous name, (ToolNotice.redefined previous name entry.expression).message ∈ warnings ∧
            (t.displayName = previous ∨ t.displayName = name)) ∨
          .symbol entry.expression ∈ tools ∧ .function entry.expression ∈ tools)
  /-- What is listed is a tool attached to the node, or wraps a member of the orchestrator that it is. -/
  sound : ∀ entry ∈ tools,
    (∃ e ∈ g.edges, g.verdict e = .role .toolAttachment ∧ e.target = id ∧
      (g.index.blueprint root).listed? e.source = some entry) ∨
    ∃ e ∈ g.edges, g.verdict e = .role .membership ∧ e.source = id ∧
      (∃ n settings, g.node? id = some n ∧ n.kind = .orchestrator settings) ∧
      ∃ function, (g.index.blueprint root).symbols.name? e.target .tool = some function ∧ entry = .delegate function

namespace Blueprint

variable {g : Graph} {root : Option String} {id : String}

theorem equips_toolEntries (hb : (g.index.blueprint root).Coherent) (hall : (g.index.blueprint root).HasTools id)
    {warnings : List String} (hw : (Toolbox.notices g.nodes).map ToolNotice.message ⊆ warnings) :
    g.Equips root warnings id
      ((g.index.blueprint root).toolEntries id ((g.index.blueprint root).delegates id)) where
  complete e he hv hid := by
    have ht : e.source ∈ g.index.tools id := Index.mem_tools_iff_edge.mpr ⟨e, he, hv, rfl, hid⟩
    obtain ⟨t, hn⟩ := Option.isSome_iff_exists.mp (hall _ ht)
    obtain ⟨a, ha⟩ := exists_attachmentOf hn (hb.tool ht hn)
    refine ⟨t, _, hn, by rw [listed?, ha, Option.map_some], ?_, ?_⟩
    · exact (toolEntries_perm id _).mem_iff.mpr (List.mem_append_left _
        (List.mem_map_of_mem ((hb.mem_attached_iff hall).mpr ⟨_, ht, ha⟩)))
    · refine (count_toolEntries hb ht hn ha hall).imp_right (Or.imp_left ?_)
      rintro ⟨previous, name, hr, hor⟩
      exact ⟨previous, name, hw (List.mem_map_of_mem hr), hor⟩
  sound entry hentry := by
    rcases mem_toolEntries hentry with ⟨a, ha, rfl⟩ | ⟨d, hd, rfl⟩
    · obtain ⟨t, ht, hat⟩ := hb.mem_attached ha
      obtain ⟨e, he, hv, rfl, hid⟩ := Index.mem_tools_iff_edge.mp ht
      exact Or.inl ⟨e, he, hv, hid, by rw [listed?, hat, Option.map_some]⟩
    · obtain ⟨m, settings, hk, hm, rfl⟩ := exists_of_mem_delegates hd
      obtain ⟨e, he, hv, hid, rfl⟩ := Index.mem_members_iff_edge.mp hm
      obtain ⟨-, n, hn, hex⟩ := Index.kinds_of_mem_members hm
      refine Or.inr ⟨e, he, hv, hid, ⟨_, settings, ?_, hk⟩, _, hb.name?_eq hn (needsSymbol_of_isExecutable hex) .tool, rfl⟩
      exact node?_of_kind (b := g.index.blueprint root) (by rw [hk]; rfl)

end Blueprint

namespace Compilation

variable {g : Graph} {options : Options}

/-- The agents of a generated program stand for the agents and orchestrators of the graph, and each lists what is
attached to its node and the functions that wrap its members. -/
theorem compile_lists_attachments (h : (Compilation.mk g options .standard).compile.isSuccess = true) :
    ∃ p root, (Compilation.mk g options .standard).program? = some p ∧
      (Compilation.mk g options .standard).compile.sourceText = p.text ∧
      g.index.rootIn (g.index.effectiveMode options.mode) = .ok root ∧
      ∀ id n, g.node? id = some n → n.kind.isExecutable = true →
        ∃ name, (g.index.blueprint root).symbols.name? id .agent = some name ∧
          ((∃ tools, (name, tools) ∈ p.equipped) ↔ n.kind.agent?.isSome = true) ∧
          ∀ tools, (name, tools) ∈ p.equipped →
            g.Equips root (Compilation.mk g options .standard).compile.warnings id tools := by
  obtain ⟨p, root, l, hp, htext, hr, hb, ha, hacc⟩ := exists_accounts h
  refine ⟨p, root, hp, htext, hr, fun id n hn hex => ?_⟩
  have howned := Blueprint.isOwned_of_executable hb.acyclic root (Index.mem_executables_of_node? hn hex)
  have hlist (tools : List ToolEntry) := hacc.mem_equipped hb ha hn hex howned tools
  refine ⟨_, hb.name?_eq hn (Blueprint.needsSymbol_of_isExecutable hex) .agent, ⟨?_, fun hk => ?_⟩, fun tools ht => ?_⟩
  · rintro ⟨tools, ht⟩
    exact ((hlist tools).mp ht).1
  · exact ⟨_, (hlist _).mpr ⟨hk, rfl⟩⟩
  · obtain ⟨hk, rfl⟩ := (hlist tools).mp ht
    refine Blueprint.equips_toolEntries hb (hacc.hasTools howned ?_) (notices_subset_warnings h)
    rwa [Blueprint.kindOf_eq (b := g.index.blueprint root) hn]

/-- A tool is not listed anywhere if it is attached to the swarm, and nothing is said of it. -/
theorem calculator_of_team_lost :
    let g := Graph.writerTeam [⟨"c", "calculator", .builtinTool ⟨"calculator"⟩⟩] "c" "t"
    (Compilation.ofGraph g).validate.valid = true ∧
      g.verdict ⟨"c", .toolOutput, "t", .tools⟩ = .role .toolAttachment ∧
      (Compilation.ofGraph g).compile.isSuccess = true ∧
      (Compilation.ofGraph g).compile.warnings = [] ∧
      (Compilation.ofGraph g).program?.map Program.equipped = some [("writer_agent", [])] := by
  decide +kernel

/-- It is listed if it is attached to the agent. -/
theorem calculator_of_writer_listed :
    let g := Graph.writerTeam [⟨"c", "calculator", .builtinTool ⟨"calculator"⟩⟩] "c" "a"
    (Compilation.mk g .default .standard).compile.isSuccess = true ∧
      ∃ p root, (Compilation.mk g .default .standard).program? = some p ∧
        ∃ name tools, (g.index.blueprint root).symbols.name? "a" .agent = some name ∧ (name, tools) ∈ p.equipped ∧
          ∃ entry ∈ tools, (g.index.blueprint root).listed? "c" = some entry := by
  intro g
  have success : (Compilation.mk g .default .standard).compile.isSuccess = true := by decide +kernel
  obtain ⟨p, root, hp, -, -, hnodes⟩ := compile_lists_attachments success
  obtain ⟨name, hname, hiff, hequips⟩ := hnodes "a" ⟨"a", "Writer", .agent .default⟩ (by decide) rfl
  obtain ⟨tools, ht⟩ := hiff.mpr rfl
  obtain ⟨-, entry, -, he, hmem, -⟩ :=
    (hequips tools ht).complete ⟨"c", .toolOutput, "a", .tools⟩ (by decide) (by decide) rfl
  exact ⟨success, p, root, hp, name, tools, hname, ht, entry, hmem, he⟩

end Compilation

end AgentWorkflow
