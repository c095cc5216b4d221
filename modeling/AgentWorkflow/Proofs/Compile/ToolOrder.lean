import AgentWorkflow.Proofs.Compile.Printed
import AgentWorkflow.Proofs.Compile.Unfolding

/-!
The order in which custom tools are declared.

Each step of a generation declares the custom tools that its nodes unfold to and gives the warnings that they give
reason to, so the whole generation does. Main statement: a generation declares the custom tools in the order in which
the unfolding of the nodes that it demands comes to them first, and it warns of what the nodes of the unfolding give
reason to.
-/

namespace AgentWorkflow

open Drafting

namespace Blueprint

variable {b : Blueprint} {k : ℕ} {id : String} {place : Place}

section Tools

open Brings

theorem declareClient_brings : b.Brings k (b.declareClient id) [] [] := by
  apply before ofExcept
  intro name
  refine after (once_client rfl ?_ ?_) fun _ => pure
  · apply before ofExcept
    intro n
    split
    · split
      · exact fail
      · exact before use fun _ => pure
    · exact fail
  · apply Gives.bind
    intro n
    split
    · split
      · exact fun _ => trivial
      · exact .bind fun _ => .pure (by simp)
    · exact fun _ => trivial

theorem declareClients_brings {ids : List String} : b.Brings k (b.declareClients ids) [] [] :=
  (mapM fun _ _ => declareClient_brings).congr (by simp) (by simp)

theorem declareCustomTool_brings : b.Brings k (b.declareCustomTool id) [id] [] := by
  unfold declareCustomTool
  split
  · exact fail
  rename_i custom _
  apply before ofExcept
  intro function
  refine after (fun d hd => ?_) fun _ => pure
  apply ends_bind.mpr
  apply ends_isFirst.mpr
  by_cases hmem : ⟨id, .topLevel, .customTool⟩ ∈ d.demands
  · rw [if_pos hmem]
    have hid : id ∈ d.customTools := (hd.requested id).mp hmem
    exact hd.advances_of_subset (List.cons_subset.mpr ⟨hid, List.nil_subset _⟩) (List.nil_subset _)
  rw [if_neg hmem]
  cases b.customToolCode id function custom with
  | error e => trivial
  | ok code => exact hd.declareTool hmem rfl rfl (Draft.customTools_emit_custom rfl rfl)

theorem declareTool_brings (a : Attachment) : b.Brings k (b.declareTool a) a.customTool?.toList [] := by
  cases a with
  | builtin symbol => exact before use fun _ => pure
  | custom t => exact after declareCustomTool_brings fun _ => pure
  | server t client => exact before declareClient_brings fun _ => pure

theorem customTools_unsorted (id : String) : (b.unsorted id).filterMap Attachment.customTool? =
    (b.index.tools id).filter fun t => (b.index.node? t).any fun n => n.kind.isCustomTool := by
  have hinj (a a' : Attachment) (t : String) (ha : a.customTool? = some t) (ha' : a'.customTool? = some t) :
      a = a' := by
    cases a <;> cases a' <;> simp_all [Attachment.customTool?]
  have hone (t : String) : (b.attachmentOf t).bind Attachment.customTool? =
      Option.guard (fun t => (b.index.node? t).any fun n => n.kind.isCustomTool) t := by
    cases hn : b.index.node? t with
    | none => simp [attachmentOf, kindOf, nodeOf, hn, Option.guard]
    | some n =>
      unfold attachmentOf
      rw [kindOf_eq hn]
      cases hk : n.kind <;> simp [hn, hk, NodeKind.isCustomTool, Attachment.customTool?, Option.guard]
  rw [unsorted, distinct_filterMap hinj, List.filterMap_filterMap, List.filterMap_congr fun t _ => hone t,
    List.filterMap_eq_filter]
  exact distinct_eq_self (Index.tools_nodup.filter _)

variable (hb : b.Coherent)

include hb

theorem customTools_toolbelt (hk : (b.kindOf id).hasAgent = true) {r : List Attachment} (hr : b.toolbelt id = .ok r) :
    r.filterMap Attachment.customTool? = b.index.ownCustomTools id := by
  have hn : b.index.node? id = some (b.nodeOf id) :=
    node?_of_kind (by cases hkind : b.kindOf id <;> simp_all [NodeKind.isInput, NodeKind.hasAgent, NodeKind.agent?])
  have hall : b.HasTools id := by
    by_contra hnot
    obtain ⟨_, _, he⟩ := hb.toolbelt_error hnot
    rw [hr] at he
    cases he
  obtain rfl := Except.ok.inj ((hb.toolbelt_eq hall).symm.trans hr)
  have hfirst : ((b.unsorted id).filter fun a => !a.isServer).filterMap Attachment.customTool? =
      (b.unsorted id).filterMap Attachment.customTool? := by
    rw [List.filterMap_filter]
    refine List.filterMap_congr fun a _ => ?_
    cases a <;> rfl
  have hlast : ((b.unsorted id).filter (not ∘ fun a => !a.isServer)).filterMap Attachment.customTool? = [] := by
    refine List.filterMap_eq_nil_iff.mpr fun a ha => ?_
    have hserver := (List.mem_filter.mp ha).2
    cases a <;> simp_all [Attachment.isServer, Attachment.customTool?]
  rw [Index.ownCustomTools, hn, Option.any_some, ← kindOf, if_pos hk, ← customTools_unsorted,
    List.partition_eq_filter_filter, List.filterMap_append, hfirst, hlast, List.append_nil]

theorem declareTools_brings (hk : (b.kindOf id).hasAgent = true) :
    b.Brings k (b.declareTools id) (b.index.ownCustomTools id) [] := by
  unfold declareTools
  cases hr : b.toolbelt id with
  | error e => exact fail_bind
  | ok r =>
    rw [ofExcept_bind rfl, ← customTools_toolbelt hb hk hr]
    refine (mapM fun a _ => after (declareTool_brings a) fun _ => pure).congr ?_ (by simp)
    exact (List.filterMap_eq_flatMap_toList _ _).symm

variable {n : Node}

theorem agentCode_brings (hn : b.index.node? id = some n) (hk : n.kind.hasAgent = true) {settings : AgentSettings}
    {delegates : List String} {coordination : Option String} :
    b.Brings k (b.agentCode n settings delegates coordination) (b.index.ownCustomTools id) [] := by
  obtain rfl := hb.node_id hn
  apply before ofExcept
  intro ident
  apply before ofExcept
  intro model
  apply before ofExcept
  intro name
  refine after (declareTools_brings hb (by rwa [kindOf_eq hn])) fun r => ?_
  exact before use fun _ => pure

end Tools

section Build

open Brings

variable {build : Build} {n : Node} (hb : b.Coherent)
  (hbuild : ∀ id place, b.Brings (b.index.height id) (build id place) (b.toolsBelow id) (b.remarksBelow id))

include hbuild

theorem declareInstance_brings (hk : b.index.height id < k) :
    b.Brings k (b.declareInstance build id place) (b.toolsBelow id) (b.remarksBelow id) := by
  apply before ofExcept
  intro name
  refine after (once_node (Or.inl rfl) hk ?_ ?_) fun _ => pure
  · refine after (hbuild id place) fun code => ?_
    exact before ofExcept fun _ => pure
  · refine .bind fun code => .bind fun n => .pure ?_
    cases n.kind <;> simp [NodeKind.instanceFragment]

theorem wrapperCode_brings : b.Brings (b.index.height id) (b.wrapperCode build id place) (b.toolsBelow id)
    (b.remarksBelow id) := by
  apply before ofExcept
  intro n
  apply before ofExcept
  intro name
  refine after (hbuild id _) fun own => ?_
  apply before take
  intro inside
  apply before ofExcept
  intro var
  dsimp only
  split_ifs
  · exact before declareClients_brings fun _ => pure
  · exact pure

theorem declareWrapper_brings (hk : b.index.height id < k) :
    b.Brings k (b.declareWrapper build id place) (b.toolsBelow id) (b.remarksBelow id) := by
  apply before ofExcept
  intro name
  refine after (once_node (Or.inr rfl) hk ?_ ?_) fun _ => pure
  · refine after (wrapperCode_brings hbuild) fun c => ?_
    exact before use fun _ => pure
  · exact .bind fun _ => .bind fun _ => .pure (by simp)

theorem declareStep_brings (hk : b.index.height id < k) :
    b.Brings k (b.declareStep build place id) (b.toolsBelow id) (b.remarksBelow id) := by
  refine after (declareInstance_brings hbuild hk) fun name => ?_
  exact before ofExcept fun _ => pure

theorem dependencyGraph_brings {builder name : String} {members : List String} {limits : List Limit}
    (hk : ∀ m ∈ members, b.index.height m < k) : b.Brings k (b.dependencyGraph build builder name members limits place)
      ((distinct members).flatMap b.toolsBelow) ((distinct members).flatMap b.remarksBelow) := by
  refine after (mapM fun m hm => declareStep_brings hbuild (hk m (mem_distinct.mp hm))) fun declared => ?_
  exact before use fun _ => pure

theorem declareTeammate_brings (hk : b.index.height id < k) :
    b.Brings k (b.declareTeammate build n place id) (b.toolsBelow id) (b.remarksBelow id) := by
  apply before ofExcept
  intro teammate
  split_ifs
  · exact declareInstance_brings hbuild hk
  · exact fail

omit hbuild in
theorem swarmEntry_brings (hn : b.index.node? id = some n) {settings : SwarmSettings} (hk : n.kind = .swarm settings)
    {names : List String} (hlen : names.length = (b.index.members id).length) :
    b.Brings k (b.swarmEntry n settings ((b.index.members id).zip names)) [] (b.remarks id) := by
  have hfind (good : String → Bool) :
      (((b.index.members id).zip names).find? fun pair => good pair.1).isSome = (b.index.members id).any good := by
    conv_rhs => rw [← List.map_fst_zip hlen.ge, List.any_map]
    rw [List.isSome_find?]
    rfl
  unfold swarmEntry remarks
  rw [kindOf_eq hn, nodeOf_eq hn, hk]
  dsimp only
  cases settings.entryPoint.bind Text.nonBlank? with
  | none => exact pure
  | some wanted =>
    have hnamed := hfind (b.isNamed (Text.trim wanted))
    dsimp only
    split <;> rename_i hf
    · rw [show _ = some _ from hf, Option.isSome_some] at hnamed
      rw [if_pos hnamed.symm]
      exact pure
    · rw [show _ = none from hf, Option.isSome_none] at hnamed
      rw [if_neg (by simp [← hnamed])]
      exact after warn fun _ => pure

section Members

include hb

theorem orchestratorCode_brings (hn : b.index.node? id = some n) {settings : OrchestratorSettings}
    (hk : n.kind = .orchestrator settings) :
    b.Brings (b.index.height id) (b.orchestratorCode build n settings place) (b.toolsBelow id) (b.remarksBelow id) := by
  obtain rfl := hb.node_id hn
  have hwarn : b.Brings (b.index.height n.id)
      (if (b.index.members n.id).isEmpty then Drafting.warn (aloneMessage n) else Pure.pure ⟨⟩) [] (b.remarks n.id) := by
    unfold remarks
    rw [kindOf_eq hn, nodeOf_eq hn, hk]
    dsimp only
    split_ifs
    · exact warn
    · exact pure
  have hwrappers : b.Brings (b.index.height n.id) ((b.index.members n.id).mapM fun member =>
      b.declareWrapper build member (b.dependencyPlace member place))
        ((b.index.members n.id).flatMap b.toolsBelow) ((b.index.members n.id).flatMap b.remarksBelow) :=
    mapM fun m hm => declareWrapper_brings hbuild (Index.height_lt hb.acyclic (.single hm))
  rw [toolsBelow_eq hb.acyclic, remarksBelow_eq hb.acyclic, orchestratorCode_eq]
  refine (hwarn.bind fun _ => hwrappers.bind fun names => agentCode_brings hb hn (by rw [hk]; rfl)).congr rfl ?_
  simp [or_comm]

theorem swarmCode_brings (hn : b.index.node? id = some n) {settings : SwarmSettings} (hk : n.kind = .swarm settings) :
    b.Brings (b.index.height id) (b.swarmCode build n settings place) (b.toolsBelow id) (b.remarksBelow id) := by
  obtain rfl := hb.node_id hn
  have hown : b.index.ownCustomTools n.id = [] := by
    rw [Index.ownCustomTools, hn, Option.any_some, hk]
    rfl
  have hlength : ((b.index.members n.id).mapM (b.declareTeammate build n place)).Gives
      fun names => names.length = (b.index.members n.id).length := .of_leaves leaves_mapM_length
  rw [toolsBelow_eq hb.acyclic, remarksBelow_eq hb.acyclic, hown, swarmCode_eq]
  split_ifs
  · exact fail
  · refine bind_gives (mapM fun m hm => declareTeammate_brings hbuild (Index.height_lt hb.acyclic (.single hm)))
      hlength fun names hlen => ?_
    refine after (swarmEntry_brings hn hk hlen) fun entry => ?_
    exact before use fun _ => before ofExcept fun _ => pure

theorem containerCode_brings (hn : b.index.node? id = some n) {settings : ContainerSettings}
    (hk : n.kind = .container settings) :
    b.Brings (b.index.height id) (b.containerCode build n settings place) (b.toolsBelow id) (b.remarksBelow id) := by
  obtain rfl := hb.node_id hn
  have hown : b.index.ownCustomTools n.id = [] ∧ b.remarks n.id = [] := by
    rw [Index.ownCustomTools, remarks, kindOf_eq hn, hn, Option.any_some, hk]
    exact ⟨rfl, rfl⟩
  have hgraph (builder name : String) : b.Brings (b.index.height n.id)
      (b.dependencyGraph build builder name (b.index.members n.id) settings.limits place)
      ((distinct (b.index.members n.id)).flatMap b.toolsBelow) ((distinct (b.index.members n.id)).flatMap b.remarksBelow) :=
    dependencyGraph_brings hbuild fun m hm => Index.height_lt hb.acyclic (.single hm)
  rw [toolsBelow_eq hb.acyclic, remarksBelow_eq hb.acyclic, hown.1, hown.2, List.append_nil, List.append_nil]
  rw [distinct_eq_self Index.members_nodup] at hgraph
  rw [containerCode_eq]
  split_ifs
  · exact fail
  · exact before ofExcept fun builder => before ofExcept fun name => hgraph builder name

variable (howner : ∀ id m, m ∈ b.index.members id → ∃ n, b.index.node? id = some n ∧ n.kind.isComposite = true)

include howner

omit hbuild in
theorem agent_brings (hn : b.index.node? id = some n) {settings : AgentSettings} (hk : n.kind = .agent settings) :
    b.Brings k (b.agentCode n settings [] none) (b.toolsBelow id) (b.remarksBelow id) := by
  have hmembers : b.index.members id = [] := by
    refine List.eq_nil_iff_forall_not_mem.mpr fun m hm => ?_
    obtain ⟨n', hn', hc⟩ := howner id m hm
    obtain rfl := Option.some.inj (hn.symm.trans hn')
    simp [hk, NodeKind.isComposite] at hc
  have hremarks : b.remarks id = [] := by
    rw [remarks, kindOf_eq hn, hk]
  rw [toolsBelow_eq hb.acyclic, remarksBelow_eq hb.acyclic, hmembers, hremarks]
  exact agentCode_brings hb hn (by rw [hk]; rfl)

theorem expand_brings : b.Brings (b.index.height id) (b.expand .standard build id place) (b.toolsBelow id)
    (b.remarksBelow id) := by
  unfold expand node
  cases hn : b.index.node? id with
  | none => exact fail_bind
  | some n =>
    rw [ofExcept_bind rfl]
    split
    · exact fail
    · rename_i pattern hpattern
      change b.Brings _ (b.patternCode build pattern n place) _ _
      clear hpattern
      unfold patternCode
      split <;> rename_i hk
      · exact agent_brings hb howner hn hk
      · exact orchestratorCode_brings hb hbuild hn hk
      · exact swarmCode_brings hb hbuild hn hk
      · exact containerCode_brings hb hbuild hn hk
      · exact fail

end Members

end Build

section Run

open Brings

variable (hb : b.Coherent)
  (howner : ∀ id m, m ∈ b.index.members id → ∃ n, b.index.node? id = some n ∧ n.kind.isComposite = true)

include hb howner

/-- Expanding a node comes to what is below it. How deep expansions may nest makes no difference: one that goes too deep
gives no result. -/
theorem expandWithin_brings (bound : ℕ) : ∀ id place,
    b.Brings (b.index.height id) (b.expandWithin .standard bound id place) (b.toolsBelow id) (b.remarksBelow id) := by
  induction bound with
  | zero => exact fun _ _ _ _ => trivial
  | succ bound ih => exact fun id place => expand_brings hb ih howner

theorem code_brings (id : String) (place : Place) :
    b.Brings (b.index.height id) (b.code .standard id place) (b.toolsBelow id) (b.remarksBelow id) :=
  expandWithin_brings hb howner b.depth id place

theorem declareIdle_brings : b.Brings b.depth (b.declareIdle (b.code .standard) id) (b.toolsBelow id)
    (b.remarksBelow id) := by
  unfold declareIdle
  split_ifs
  · exact declareWrapper_brings (code_brings hb howner) (hb.shallow id)
  · exact declareInstance_brings (code_brings hb howner) (hb.shallow id)

/-- What is said of a connection that linear mode does not follow. -/
def unchainedMessage (b : Blueprint) (source target : String) : String :=
  "Linear mode runs a single node; the connection from '" ++ b.index.nameOf source ++ "' to '" ++
    b.index.nameOf target ++ "' is not executed"

/-- What is said of the connections that linear mode does not follow. -/
def unchained (b : Blueprint) : List String :=
  b.index.topLevel.flatMap fun source => (b.index.dataSuccessors source).map (b.unchainedMessage source)

omit hb howner in
theorem warnUnchained_brings : b.Brings k b.warnUnchained [] b.unchained := by
  have hfrom (source : String) : b.Brings k ((b.index.dataSuccessors source).forM fun target =>
      Drafting.warn (b.unchainedMessage source target)) []
        ((b.index.dataSuccessors source).flatMap fun target => [b.unchainedMessage source target]) := by
    have hone (target : String) : b.Brings k (Drafting.warn (b.unchainedMessage source target)) []
        [b.unchainedMessage source target] := warn
    exact (forM fun target _ => hone target).congr (by simp) fun _ => Iff.rfl
  refine (forM fun source _ => hfrom source).congr (by simp) fun m => ?_
  simp [unchained, ← List.map_eq_flatMap]

/-- What a program declares first: what it runs, and then what is declared and not run. -/
def declared (b : Blueprint) (root : Option String) : List String :=
  distinct (b.runs root) ++ b.idle root

theorem linearRun_brings {requested : Mode} {r : String} :
    b.Brings b.depth (b.linearRun (b.code .standard) requested r) ((b.declared (some r)).flatMap b.toolsBelow)
      ((b.declared (some r)).flatMap b.remarksBelow ++ if requested = .linear then b.unchained else []) := by
  have hidle : b.Brings b.depth ((b.idle (some r)).forM fun id => discard (b.declareIdle (b.code .standard) id))
      ((b.idle (some r)).flatMap b.toolsBelow) ((b.idle (some r)).flatMap b.remarksBelow) :=
    forM fun _ _ => .discard (declareIdle_brings hb howner)
  have hrun (place : Place) : b.Brings b.depth (b.declareInstance (b.code .standard) r place) (b.toolsBelow r)
      (b.remarksBelow r) := declareInstance_brings (code_brings hb howner) (hb.shallow r)
  have hdeclared : b.declared (some r) = r :: b.idle (some r) := rfl
  rw [hdeclared, List.flatMap_cons, List.flatMap_cons, List.append_assoc]
  unfold linearRun
  refine (hrun _).bind fun name => before ofExcept fun n => ?_
  have hrest (run : Run) : b.Brings b.depth (do
      if requested = .linear then b.warnUnchained
      return run) [] (if requested = .linear then b.unchained else []) := by
    split_ifs
    · exact after warnUnchained_brings fun _ => pure
    · exact pure
  have hall := hidle.bind fun _ =>
    hrest ⟨name, n.kind.execution, b.closures.union [r], r :: b.index.composedBy r⟩
  rwa [List.append_nil] at hall

theorem graphRun_brings : b.Brings b.depth (b.graphRun (b.code .standard)) ((b.declared none).flatMap b.toolsBelow)
    ((b.declared none).flatMap b.remarksBelow) := by
  have hdeclared : b.declared none = distinct b.index.topLevel := List.append_nil _
  rw [hdeclared, graphRun_eq]
  split
  · exact fail
  · refine after (dependencyGraph_brings (code_brings hb howner) fun m _ => hb.shallow m) fun code => ?_
    exact before (emit (by simp)) fun _ => pure

omit hb howner in
theorem program_brings {options : Options} {r : Run} : b.Brings k (b.program options r) [] [] := by
  rw [program_eq]
  refine before declareClients_brings fun clients => before take fun inside => before get fun d => ?_
  split
  · exact fail
  · exact before take fun _ => before get fun _ => pure

end Run

end Blueprint

namespace Compilation

variable {g : Graph} {options : Options} {root : Option String}

/-- The warnings of a compilation: what the check of the graph advises, the notices about tools, and what was said
during the generation. -/
theorem compile_warnings (h : (Compilation.mk g options .standard).compile.isSuccess = true) :
    (Compilation.mk g options .standard).compile.warnings = g.index.validate.warnings ++
      ((Toolbox.notices g.nodes).map ToolNotice.message ++
        (Compilation.mk g options .standard).generate.2.diagnostics.warnings) := by
  obtain ⟨p, hp, -⟩ := exists_program h
  obtain ⟨hv, gen, d, hg, -⟩ := exists_generated hp
  rw [compile_of_ok hv hg, hg]
  exact congrArg (g.index.validate.warnings ++ ·) ((Index.generate_tells .empty).of_run hg).2

/-- A generation unfolds the nodes that it demands: it declares the custom tools that the unfolding comes to, each at
its first use, and warns of what the nodes of the unfolding give reason to and, where one node alone runs by request, of
the connections that are not followed. -/
theorem generate_unfolds {p : Program} (h : (Compilation.mk g options .standard).program? = some p)
    (hr : g.index.rootIn (g.index.effectiveMode options.mode) = .ok root) :
    let b := g.index.blueprint root
    let d := (Compilation.mk g options .standard).generate.2
    d.customTools = distinct ((b.declared root).flatMap b.toolsBelow) ∧
      ∀ m, m ∈ d.diagnostics.warnings ↔ m ∈ (b.declared root).flatMap b.remarksBelow ∨
        (options.mode = .linear ∧ root ≠ none ∧ m ∈ b.unchained) := by
  obtain ⟨hv, gen, d, hg, rfl⟩ := exists_generated h
  have hb := Blueprint.coherent_of_isAcyclic (Index.isAcyclic hv) root
  have howner (id m : String) (hm : m ∈ (g.index.blueprint root).index.members id) :=
    (Index.kinds_of_mem_members (g := g) hm).1
  have hrun : (g.index.blueprint root).Brings (g.index.blueprint root).depth
      ((g.index.blueprint root).run ((g.index.blueprint root).code .standard) options.mode root)
      (((g.index.blueprint root).declared root).flatMap (g.index.blueprint root).toolsBelow)
      (((g.index.blueprint root).declared root).flatMap (g.index.blueprint root).remarksBelow ++
        if options.mode = .linear ∧ root ≠ none then (g.index.blueprint root).unchained else []) := by
    cases root with
    | some r => exact (Blueprint.linearRun_brings hb howner).congr rfl (by simp)
    | none => exact (Blueprint.graphRun_brings hb howner).congr rfl (by simp)
  have hends : (g.index.generate options .standard).Ends .empty (fun _ d =>
      (g.index.blueprint root).Advances (g.index.blueprint root).depth .empty d
        (((g.index.blueprint root).declared root).flatMap (g.index.blueprint root).toolsBelow)
        (((g.index.blueprint root).declared root).flatMap (g.index.blueprint root).remarksBelow ++
          if options.mode = .linear ∧ root ≠ none then (g.index.blueprint root).unchained else [])) fun _ => True := by
    -- Assembling the program from what the run left declares nothing more.
    rw [Index.generate_eq hr]
    refine (hrun.after fun r => ?_) .empty Blueprint.settled_empty
    exact .before Blueprint.program_brings fun p => .before .get fun d => .pure
  have ha := hends.of_run hg
  dsimp only
  rw [hg]
  refine ⟨ha.customTools, fun m => ?_⟩
  rw [ha.warnings, List.mem_append, List.mem_ite_nil_right, and_assoc]
  exact or_iff_right List.not_mem_nil

end Compilation

end AgentWorkflow
