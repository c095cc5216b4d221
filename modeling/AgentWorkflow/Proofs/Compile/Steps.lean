import AgentWorkflow.Compile.Compilation
import AgentWorkflow.Proofs.Compile.Draft

/-!
The steps of a generation that check something before they go on.

Each has an equation with the check apart from what follows it, so that what is proved of a generation is proved of the
check and of the computations after it. Main statement: where it is known what a program runs, a generation is the run
and then the program.
-/

namespace AgentWorkflow

open Drafting

namespace Blueprint

variable {b : Blueprint} {build : Build} {n : Node} {place : Place}

theorem orchestratorCode_eq {settings : OrchestratorSettings} : b.orchestratorCode build n settings place =
    (if (b.index.members n.id).isEmpty then
      warn ("Orchestrator '" ++ n.displayName ++ "' has no sub-agents and will run as a plain agent")
    else pure ⟨⟩) >>= fun _ => (do
      let delegates ← (b.index.members n.id).mapM fun member =>
        b.declareWrapper build member (b.dependencyPlace member place)
      b.agentCode n settings.agent delegates settings.coordinationPrompt) := by
  unfold orchestratorCode
  dsimp only
  split_ifs <;> rfl

theorem swarmCode_eq {settings : SwarmSettings} : b.swarmCode build n settings place =
    if (b.index.members n.id).isEmpty then fail (.badComposition n.displayName .emptySwarm)
    else (do
      let names ← (b.index.members n.id).mapM (b.declareTeammate build n place)
      let entry ← b.swarmEntry n settings ((b.index.members n.id).zip names)
      use [.swarm]
      return [.swarm (← ofExcept (b.instanceVariable n.id)) names entry settings]) := by
  unfold swarmCode
  dsimp only
  split_ifs <;> rfl

theorem containerCode_eq {settings : ContainerSettings} : b.containerCode build n settings place =
    if (b.index.members n.id).isEmpty then fail (.badComposition n.displayName .emptyContainer)
    else (do
      let builder ← ofExcept (b.name n.id .builder)
      let name ← ofExcept (b.name n.id .graph)
      b.dependencyGraph build builder name (b.index.members n.id) settings.limits place) := by
  unfold containerCode
  dsimp only
  split_ifs <;> rfl

theorem graphRun_eq : b.graphRun build =
    if b.index.topLevel.isEmpty then failInternal .noTopLevel
    else
      let servers := b.closures.union b.index.topLevel
      let place := if servers.isEmpty then Place.topLevel else .root
      do
        let code ← b.dependencyGraph build workflowBuilder workflowGraph b.index.topLevel [] place
        emit place ⟨.composition, none, code⟩
        return { name := workflowGraph, execution := .graph, servers, prompters := b.index.topLevel } := by
  unfold graphRun
  dsimp only
  split <;> rfl

theorem program_eq {options : Options} {r : Run} : b.program options r = do
    let clients ← b.declareClients r.servers
    let inside ← take .root
    match (← get).leftover? with
    | some place => failInternal (.leftover place)
    | none =>
      let entry : Entry := {
        root := r.name
        execution := r.execution
        prompt := (b.index.suppliedPrompt? r.prompters).getD options.defaultPrompt
        clients, inside }
      let fragments ← take .topLevel
      return ⟨options.header, (← get).imports, fragments ++ [entry.fragment]⟩ := by
  unfold program
  refine congrArg _ (funext fun clients => congrArg _ (funext fun inside => congrArg _ (funext fun d => ?_)))
  cases d.leftover? <;> rfl

end Blueprint

namespace Index

variable {ix : Index} {options : Options} {expanders : Expanders}

theorem generate_eq {root : Option String} (h : ix.rootIn (ix.effectiveMode options.mode) = .ok root) :
    ix.generate options expanders = do
      let run ← (ix.blueprint root).run ((ix.blueprint root).code expanders) options.mode root
      let program ← (ix.blueprint root).program options run
      return {
        program
        warnings := (Toolbox.notices ix.graph.nodes).map ToolNotice.message ++ (← get).diagnostics.warnings
        root := root.getD Blueprint.workflowGraph
        mode := ix.effectiveMode options.mode } := by
  unfold generate
  dsimp only
  rw [h, ofExcept_bind rfl]

/-- What a generation tells beside the program. -/
theorem generate_tells (d : Draft) : (ix.generate options expanders).Ends d (fun gen d' =>
    gen.mode = ix.effectiveMode options.mode ∧
      gen.warnings = (Toolbox.notices ix.graph.nodes).map ToolNotice.message ++ d'.diagnostics.warnings)
      fun _ => True := by
  unfold generate
  refine ends_bind.mpr ((ends_trivial _ _).mono (fun root d _ => ?_) fun _ => id)
  refine ends_bind.mpr ((ends_trivial _ _).mono (fun r d _ => ?_) fun _ => id)
  refine ends_bind.mpr ((ends_trivial _ _).mono (fun p d _ => ?_) fun _ => id)
  exact ⟨rfl, rfl⟩

end Index

end AgentWorkflow
