import AgentWorkflow.Proofs.Compile.Steps

/-!
What generations preserve whatever the expanders do.

A computation preserves an invariant of drafts if the draft that it leaves has it, also when it ends with an error.
Main statement: a generation preserves each invariant that the steps of which generations are made preserve.
-/

namespace AgentWorkflow

open Drafting

/-- An invariant of drafts that concerns fragments alone, and that more fragments do not break. -/
structure Draft.IsStable (inv : Draft → Prop) : Prop where
  imports : ∀ d imports, inv d → inv { d with imports := imports }
  diagnostics : ∀ d diagnostics, inv d → inv { d with diagnostics := diagnostics }
  demands : ∀ d demands, inv d → inv { d with demands := demands }
  notes : ∀ d notes, inv d → inv { d with notes := notes }
  emit : ∀ d place f, inv d → inv (d.emit place f)

/-- A computation that starts from a draft with an invariant leaves one that has it, also when it ends with an error. -/
def Drafting.Preserves (inv : Draft → Prop) {α : Type} (m : Drafting α) : Prop :=
  ∀ d, inv d → m.Leaves d (fun _ => inv) inv

namespace Drafting.Preserves

variable {inv : Draft → Prop} {α β : Type} {m : Drafting α}

theorem pure {a : α} : Preserves inv (Pure.pure a : Drafting α) :=
  fun _ hd => hd

theorem crash : Preserves inv (throwThe Failure .crash : Drafting α) :=
  fun _ _ => trivial

theorem fail {e : CompileError} : Preserves inv (Drafting.fail e : Drafting α) :=
  fun _ hd => hd

theorem get : Preserves inv (MonadState.get : Drafting Draft) :=
  fun _ hd => hd

theorem bind {f : α → Drafting β} (h : m.Preserves inv) (hf : ∀ a, (f a).Preserves inv) :
    (m >>= f).Preserves inv := by
  intro d hd
  apply leaves_bind.mpr
  exact (h d hd).mono (fun a d' hd' => hf a d' hd') fun _ hd' => hd'

theorem ofExcept {e : Except CompileError α} : Preserves inv (Drafting.ofExcept e) := by
  cases e with
  | error e => exact fail
  | ok a => exact pure

theorem attempt (h : m.Preserves inv) : (Drafting.attempt m).Preserves inv := by
  intro d hd
  have hm := h d hd
  unfold Drafting.attempt Leaves at *
  dsimp only [ExceptT.run, ExceptT.mk, Bind.bind, StateT.bind] at hm ⊢
  rcases hr : m d with ⟨(_ | _) | _, d'⟩
  -- an error that is handled leaves the draft that it came with
  all_goals rw [hr] at hm
  all_goals exact hm

theorem mapM {f : α → Drafting β} {xs : List α} (h : ∀ x ∈ xs, (f x).Preserves inv) :
    (xs.mapM f).Preserves inv := by
  induction xs with
  | nil => exact pure
  | cons x xs ih =>
    rw [List.mapM_cons]
    apply bind (h x List.mem_cons_self)
    intro y
    apply bind (ih fun z hz => h z (List.mem_cons_of_mem x hz))
    intro ys
    exact pure

theorem forM {f : α → Drafting PUnit} {xs : List α} (h : ∀ x ∈ xs, (f x).Preserves inv) :
    (xs.forM f).Preserves inv := by
  induction xs with
  | nil => exact pure
  | cons x xs ih =>
    apply bind (h x List.mem_cons_self)
    intro _
    exact ih fun z hz => h z (List.mem_cons_of_mem x hz)

theorem discard (h : m.Preserves inv) : (Functor.discard m).Preserves inv := by
  rw [Functor.discard, LawfulFunctor.map_const, Function.comp_apply, ← bind_pure_comp]
  exact bind h fun _ => pure

theorem of_run {r : Except Failure α} {d d' : Draft} (h : m.Preserves inv) (hd : inv d)
    (hr : m.run d = ((r, d') : Except Failure α × Draft)) (hcrash : r ≠ .error .crash) : inv d' := by
  have hm := h d hd
  unfold Leaves at hm
  rw [hr] at hm
  rcases r with (_ | _) | _
  · exact hm
  · exact absurd rfl hcrash
  · exact hm

section Stable

variable (hs : Draft.IsStable inv)

include hs

theorem use {features : List Feature} : (Drafting.use features).Preserves inv :=
  fun d hd => hs.imports d _ hd

theorem warn {message : String} : (Drafting.warn message).Preserves inv :=
  fun d hd => hs.diagnostics d _ hd

theorem report {message : String} : (Drafting.report message).Preserves inv :=
  fun d hd => hs.diagnostics d _ hd

theorem note {text : String} : (Drafting.note text).Preserves inv :=
  fun d hd => hs.notes d _ hd

theorem emit {place : Place} {f : Fragment} : (Drafting.emit place f).Preserves inv :=
  fun d hd => hs.emit d _ _ hd

theorem isFirst {q : Demand} : (Drafting.isFirst q).Preserves inv := by
  intro d hd
  unfold Leaves
  rw [run_isFirst]
  split_ifs
  · exact hd
  · exact hs.demands d _ hd

theorem once {q : Demand} {make : Drafting Fragment} (h : make.Preserves inv) :
    (Drafting.once q make).Preserves inv := by
  apply bind (isFirst hs)
  intro isNew
  cases isNew with
  | false => exact pure
  | true => exact bind h fun _ => emit hs

end Stable

end Drafting.Preserves

/-- A dialogue never takes fragments away. -/
def Dialogue.TakesNothing : Dialogue → Prop
  | .done _ | .fail _ | .crash => True
  | .ask request proceed => (∀ place, request ≠ .take place) ∧ ∀ answer, (proceed answer).TakesNothing

/-- Expanders never take fragments away. -/
def Expanders.TakeNothing (expanders : Expanders) : Prop :=
  ∀ pattern expand, expanders pattern = .custom expand → ∀ n place, (expand n place).TakesNothing

namespace Blueprint

open Drafting.Preserves

/-- The steps of which generations are made preserve an invariant: what expanders do to a draft themselves, and the
declarations of parts. -/
structure Steps (b : Blueprint) (build : Build) (inv : Draft → Prop) : Prop where
  use : ∀ features, (Drafting.use features).Preserves inv
  warn : ∀ message, (Drafting.warn message).Preserves inv
  report : ∀ message, (Drafting.report message).Preserves inv
  note : ∀ text, (Drafting.note text).Preserves inv
  emit : ∀ place f, (Drafting.emit place f).Preserves inv
  code : ∀ id place, (build id place).Preserves inv
  declareInstance : ∀ id place, (b.declareInstance build id place).Preserves inv
  declareWrapper : ∀ id place, (b.declareWrapper build id place).Preserves inv
  declareClient : ∀ id, (b.declareClient id).Preserves inv
  declareCustomTool : ∀ id, (b.declareCustomTool id).Preserves inv

variable {b : Blueprint} {build : Build} {inv : Draft → Prop} {id : String} {place : Place}

section Stable

variable (hs : Draft.IsStable inv)

include hs

theorem declareClient_preserves : (b.declareClient id).Preserves inv := by
  refine bind ofExcept fun name => bind (once hs (bind ofExcept fun n => ?_)) fun _ => pure
  split
  · split
    · exact fail
    · exact bind (use hs) fun _ => pure
  · exact fail

theorem declareClients_preserves {ids : List String} : (b.declareClients ids).Preserves inv :=
  mapM fun _ _ => declareClient_preserves hs

theorem declareCustomTool_preserves : (b.declareCustomTool id).Preserves inv := by
  unfold declareCustomTool
  split
  · exact fail
  · refine bind ofExcept fun function => bind (once hs (bind (use hs) fun _ => ?_)) fun _ => pure
    exact bind ofExcept fun _ => pure

theorem declareInstance_preserves (hbuild : ∀ id place, (build id place).Preserves inv) :
    (b.declareInstance build id place).Preserves inv := by
  refine bind ofExcept fun name => bind (once hs (bind (hbuild id place) fun _ => ?_)) fun _ => pure
  exact bind ofExcept fun _ => pure

/-- Of the steps only the declaration of a function that wraps a node takes fragments away. -/
theorem steps_of_isStable (hbuild : ∀ id place, (build id place).Preserves inv)
    (hwrap : ∀ id place, (b.declareWrapper build id place).Preserves inv) : b.Steps build inv where
  use _ := use hs
  warn _ := warn hs
  report _ := report hs
  note _ := note hs
  emit _ _ := emit hs
  code := hbuild
  declareInstance _ _ := declareInstance_preserves hs hbuild
  declareWrapper := hwrap
  declareClient _ := declareClient_preserves hs
  declareCustomTool _ := declareCustomTool_preserves hs

end Stable

namespace Steps

variable (hs : b.Steps build inv)

include hs

theorem declareTools : (b.declareTools id).Preserves inv := by
  have hone (a : Attachment) : (b.declareTool a).Preserves inv := by
    cases a with
    | builtin symbol => exact bind (hs.use _) fun _ => pure
    | custom t => exact bind (hs.declareCustomTool t) fun _ => pure
    | server t client => exact bind (hs.declareClient t) fun _ => pure
  refine bind ofExcept fun tools => ?_
  exact mapM fun a _ => bind (hone a) fun _ => pure

theorem agentCode {n : Node} {settings : AgentSettings} {delegates : List String} {coordination : Option String} :
    (b.agentCode n settings delegates coordination).Preserves inv := by
  refine bind ofExcept fun ident => bind ofExcept fun model => bind ofExcept fun name => ?_
  exact bind hs.declareTools fun _ => bind (hs.use _) fun _ => pure

theorem orchestratorCode {n : Node} {settings : OrchestratorSettings} :
    (b.orchestratorCode build n settings place).Preserves inv := by
  rw [orchestratorCode_eq]
  refine bind ?_ fun _ => bind (mapM fun _ _ => hs.declareWrapper _ _) fun _ => hs.agentCode
  split_ifs
  · exact hs.warn _
  · exact pure

theorem swarmCode {n : Node} {settings : SwarmSettings} :
    (b.swarmCode build n settings place).Preserves inv := by
  have hmate (member : String) : (b.declareTeammate build n place member).Preserves inv := by
    refine bind ofExcept fun teammate => ?_
    split_ifs
    · exact hs.declareInstance _ _
    · exact fail
  have hentry (team : List (String × String)) : (b.swarmEntry n settings team).Preserves inv := by
    unfold swarmEntry
    split
    · exact pure
    · split
      · exact pure
      · exact bind (hs.warn _) fun _ => pure
  rw [swarmCode_eq]
  split_ifs
  · exact fail
  · refine bind (mapM fun member _ => hmate member) fun names => bind (hentry _) fun entry => ?_
    exact bind (hs.use _) fun _ => bind ofExcept fun _ => pure

theorem dependencyGraph {builder name : String} {members : List String} {limits : List Limit} :
    (b.dependencyGraph build builder name members limits place).Preserves inv := by
  have hstep (member : String) : (b.declareStep build place member).Preserves inv := by
    apply bind (hs.declareInstance _ _)
    intro name
    exact bind ofExcept fun _ => pure
  apply bind (mapM fun member _ => hstep member)
  intro declared
  exact bind (hs.use _) fun _ => pure

theorem containerCode {n : Node} {settings : ContainerSettings} :
    (b.containerCode build n settings place).Preserves inv := by
  rw [containerCode_eq]
  split_ifs
  · exact fail
  · exact bind ofExcept fun _ => bind ofExcept fun _ => hs.dependencyGraph

theorem patternCode {pattern : Pattern} {n : Node} : (b.patternCode build pattern n place).Preserves inv := by
  unfold Blueprint.patternCode
  split
  · exact hs.agentCode
  · exact hs.orchestratorCode
  · exact hs.swarmCode
  · exact hs.containerCode
  · exact fail

theorem answer {request : Request}
    (htake : (∀ place, request ≠ .take place) ∨ ∀ place, (Drafting.take place).Preserves inv) :
    (b.answer build request).Preserves inv := by
  cases request with
  | node id => exact ofExcept
  | name id role => exact ofExcept
  | ident id => exact ofExcept
  | instanceVariable id => exact ofExcept
  | dependencyPlace id place => exact pure
  | memberPlace id place => exact pure
  | emit place fragment => exact hs.emit place fragment
  | take place => exact htake.elim (fun h => absurd rfl (h place)) fun h => h place
  | code id place => exact hs.code id place
  | declareInstance id place => exact hs.declareInstance id place
  | declareWrapper id place => exact hs.declareWrapper id place
  | declareClients ids => exact mapM fun id _ => hs.declareClient id
  | declareCustomTool id => exact hs.declareCustomTool id
  | declareTools id => exact hs.declareTools
  | imports => exact bind get fun _ => pure
  | use feature => exact hs.use [feature]
  | warn message => exact hs.warn message
  | report message => exact hs.report message
  | note text => exact hs.note text
  | agent n settings delegates coordination => exact hs.agentCode
  | dependencyGraph builder name members limits place => exact hs.dependencyGraph
  | pattern pattern n place => exact hs.patternCode

theorem converse {dialogue : Dialogue}
    (htake : dialogue.TakesNothing ∨ ∀ place, (Drafting.take place).Preserves inv) :
    (b.converse build dialogue).Preserves inv := by
  induction dialogue with
  | done code => exact pure
  | fail e => exact fail
  | crash => exact crash
  | ask request proceed ih =>
    apply bind (attempt (hs.answer (htake.imp_left And.left)))
    intro answer
    exact ih answer (htake.imp_left fun h => h.2 answer)

theorem expand {expanders : Expanders}
    (htake : expanders.TakeNothing ∨ ∀ place, (Drafting.take place).Preserves inv) :
    (b.expand expanders build id place).Preserves inv := by
  refine bind ofExcept fun n => ?_
  split
  · exact fail
  · split
    · exact hs.patternCode
    · exact hs.converse (htake.imp_left fun h => h _ _ ‹_› n place)

theorem run (requested : Mode) (root : Option String) : (b.run build requested root).Preserves inv := by
  have hidle (id : String) : (b.declareIdle build id).Preserves inv := by
    unfold declareIdle
    split_ifs
    · exact hs.declareWrapper id .topLevel
    · exact hs.declareInstance id .topLevel
  have hunchained : b.warnUnchained.Preserves inv :=
    forM fun _ _ => forM fun _ _ => hs.warn _
  cases root with
  | some r =>
    refine bind (hs.declareInstance r _) fun name => bind ofExcept fun n => ?_
    apply bind (forM fun id _ => discard (hidle id))
    intro _
    split_ifs
    · exact bind hunchained fun _ => pure
    · exact pure
  | none =>
    change (b.graphRun build).Preserves inv
    rw [graphRun_eq]
    split
    · exact fail
    · exact bind hs.dependencyGraph fun _ => bind (hs.emit _ _) fun _ => pure

end Steps

/-- Expansions within all bounds preserve what their steps preserve, for each of several invariants: the steps of an
expansion within a bound are to preserve them if the expansions below it do. -/
theorem expandWithin_preserves {ι : Type} {inv : ι → Draft → Prop} {expanders : Expanders}
    (hs : ∀ bound, (∀ i id place, (b.expandWithin expanders bound id place).Preserves (inv i)) →
      ∀ i, b.Steps (b.expandWithin expanders bound) (inv i))
    (htake : expanders.TakeNothing ∨ ∀ i place, (Drafting.take place).Preserves (inv i)) (bound : ℕ) :
    ∀ i id place, (b.expandWithin expanders bound id place).Preserves (inv i) := by
  induction bound with
  | zero =>
    intro i id place
    exact crash
  | succ bound ih =>
    intro i id place
    exact (hs bound ih i).expand (htake.imp_right fun h => h i)

end Blueprint

end AgentWorkflow
