import AgentWorkflow.Proofs.Compile.Features
import AgentWorkflow.Proofs.Compile.Pieces
import AgentWorkflow.Proofs.Graph.Validity

/-!
Which connections a program follows.

Main statement: the dependency graphs of a generated program join two nodes between which data flows exactly if
both are members of one container, or both are at the top level and linear mode is not requested; and if it is
requested, there is a warning for each connection that starts at the top level.
-/

namespace AgentWorkflow

open Drafting

def Code.joint? : Code → Option (String × String × String)
  | .addEdge builder source target => some (builder, source, target)
  | _ => none

namespace Program

/-- What the dependency graphs of a program join: the builder, a step and the next step. -/
def joints (p : Program) : List (String × String × String) :=
  p.pieces.filterMap Code.joint?

/-- A dependency graph that a program builds joins two steps. -/
def Joins (p : Program) (source target : String) : Prop :=
  ∃ builder, .newBuilder builder ∈ p.pieces ∧ (builder, source, target) ∈ p.joints

theorem mem_joints {p : Program} {builder source target : String} :
    (builder, source, target) ∈ p.joints ↔ .addEdge builder source target ∈ p.pieces := by
  rw [joints, List.mem_filterMap]
  constructor
  · rintro ⟨c, hc, hj⟩
    cases c <;> simp_all [Code.joint?]
  · exact fun h => ⟨_, h, rfl⟩

end Program

namespace Entries

variable {κ β : Type} [DecidableEq κ]

theorem get?_zip_map {f : κ → β} (keys : List κ) (key : κ) :
    get? key (keys.zip (keys.map f)) = if key ∈ keys then some (f key) else none := by
  induction keys with
  | nil => rfl
  | cons k rest ih =>
    rw [List.map_cons, List.zip_cons_cons, get?, ih]
    by_cases hk : key = k
    · simp [hk]
    · simp [hk]

end Entries

namespace Graph

def IsContainer (g : Graph) (id : String) : Prop :=
  ∃ n settings, g.node? id = some n ∧ n.kind = .container settings

/-- The warning about a connection that is not followed because one node alone runs. -/
def unfollowed (g : Graph) (e : Edge) : String :=
  "Linear mode runs a single node; the connection from '" ++ g.nameOf e.source ++ "' to '" ++
    g.nameOf e.target ++ "' is not executed"

end Graph

namespace Index

variable {g : Graph} {requested : Mode} {root : Option String} {e : Edge}

theorem isChained_of_edge (he : e ∈ g.edges) (hv : g.verdict e = .role .dataFlow) (hs : e.source ∈ g.index.topLevel)
    (ht : e.target ∈ g.index.topLevel) : g.index.isChained = true := by
  refine List.any_eq_true.mpr ⟨_, hs, List.any_eq_true.mpr ⟨e.target, ?_, ?_⟩⟩
  · exact mem_dataSuccessors_iff_edge.mpr ⟨e, he, hv, rfl, rfl⟩
  · exact (List.mem_filter.mp ht).2

theorem root_eq_none_iff {mode : Mode} (h : g.index.rootIn mode = .ok root) : root = none ↔ mode = .graph := by
  unfold rootIn at h
  split at h
  · simp_all [eq_comm]
  · rename_i hm _
    cases h
    simpa using hm
  · cases h

theorem root_eq_none_iff_of_isChained (hc : g.index.isChained = true)
    (h : g.index.rootIn (g.index.effectiveMode requested) = .ok root) : root = none ↔ requested ≠ .linear := by
  rw [root_eq_none_iff h]
  cases requested <;> simp [effectiveMode, hc]

end Index

namespace Blueprint

variable {b : Blueprint} {members : List String} {source target : String}

theorem Coherent.identOf_inj (hb : b.Coherent) {id id' : String} {n n' : Node} (hn : b.index.node? id = some n)
    (hk : n.kind.isExecutable = true) (hn' : b.index.node? id' = some n') (hk' : n'.kind.isExecutable = true)
    (h : b.identOf id = b.identOf id') : id = id' := by
  have hname : b.nameIn id .agent = b.nameIn id' .agent := by rw [nameIn, nameIn, h]
  exact (hb.nameIn_inj hn (needsSymbol_of_isExecutable hk) hn' (needsSymbol_of_isExecutable hk') hname).1

theorem mem_steps : (source, target) ∈ b.steps (members.zip (members.map b.identOf)) ↔
    ∃ m ∈ members, ∃ next ∈ members, next ∈ b.index.dataSuccessors m ∧
      source = b.identOf m ∧ target = b.identOf next := by
  have hzip (pair : String × String) :
      pair ∈ members.zip (members.map b.identOf) ↔ ∃ m ∈ members, (m, b.identOf m) = pair := by
    rw [← List.map_prod_left_eq_zip, List.mem_map]
  rw [steps, List.mem_flatMap]
  constructor
  · rintro ⟨pair, hpair, h⟩
    obtain ⟨m, hm, rfl⟩ := (hzip pair).mp hpair
    obtain ⟨next, hnext, h⟩ := List.mem_filterMap.mp h
    rw [Entries.get?_zip_map] at h
    split_ifs at h with hin
    · obtain ⟨rfl, rfl⟩ := Prod.mk.inj (Option.some.inj h)
      exact ⟨m, hm, next, hin, hnext, rfl, rfl⟩
    · cases h
  · rintro ⟨m, hm, next, hin, hnext, rfl, rfl⟩
    refine ⟨(m, b.identOf m), (hzip _).mpr ⟨m, hm, rfl⟩, List.mem_filterMap.mpr ⟨next, hnext, ?_⟩⟩
    rw [Entries.get?_zip_map, if_pos hin]
    rfl

theorem addEdge_mem_graphContent {builder builder' name : String} {limits : List Limit} :
    .addEdge builder' source target ∈ b.graphContent builder name members limits ↔
      builder' = builder ∧ (source, target) ∈ b.steps (members.zip (members.map b.identOf)) := by
  simp only [graphContent, List.mem_cons, List.mem_append, List.mem_map, reduceCtorEq, and_false, exists_false,
    false_or, or_false, List.not_mem_nil, Code.addEdge.injEq, Prod.exists]
  constructor
  · rintro ⟨s, t, h, rfl, rfl, rfl⟩
    exact ⟨rfl, h⟩
  · rintro ⟨rfl, h⟩
    exact ⟨source, target, h, rfl, rfl, rfl⟩

theorem content_of_container {id : String} {settings : ContainerSettings} (hk : b.kindOf id = .container settings) :
    b.content id = b.graphContent (b.nameIn id .builder) (b.nameIn id .graph) (b.index.members id) settings.limits := by
  simp only [content, hk]

theorem newBuilder_mem_graphContent {builder name : String} {limits : List Limit} :
    .newBuilder builder ∈ b.graphContent builder name members limits := by
  simp [graphContent]

end Blueprint

namespace Drafting

/-- A computation that keeps what a draft holds and gives a warning. -/
def Says {α : Type} (m : Drafting α) (message : String) : Prop :=
  ∀ d : Draft, d.IsKnown → m.Ends d (fun _ d' => d'.IsKnown ∧ message ∈ d'.diagnostics.warnings) fun _ => True

namespace Says

variable {α β : Type} {m : Drafting α} {message : String} {good : α → Prop}

theorem warn : (Drafting.warn message).Says message :=
  fun _ hd => ⟨hd, List.mem_append_right _ (List.mem_singleton_self _)⟩

theorem after {f : α → Drafting β} (h : m.Keeps good) (hf : ∀ a, (f a).Says message) : (m >>= f).Says message := by
  intro d hd
  refine ends_bind.mpr ((h d hd).mono ?_ fun _ hf => hf)
  rintro a d' ⟨-, hd', -⟩
  exact hf a d' hd'

theorem bind {f : α → Drafting β} (h : m.Says message) (hf : ∀ a, (f a).Keeps fun _ => True) :
    (m >>= f).Says message := by
  intro d hd
  refine ends_bind.mpr ((h d hd).mono ?_ fun _ hf => hf)
  rintro a d' ⟨hd', hm⟩
  refine (hf a d' hd').mono ?_ fun _ hf => hf
  rintro b d'' ⟨-, hd'', hw⟩
  exact ⟨hd'', hw hm⟩

theorem forM {f : α → Drafting PUnit} {xs : List α} {x : α} (h : ∀ y ∈ xs, (f y).Keeps fun _ => True) (hx : x ∈ xs)
    (hs : (f x).Says message) : (xs.forM f).Says message := by
  induction xs with
  | nil => cases hx
  | cons y ys ih =>
    have hrest (z : α) (hz : z ∈ ys) := h z (List.mem_cons_of_mem y hz)
    rcases List.mem_cons.mp hx with rfl | hx
    · exact bind hs fun _ => Keeps.forM hrest
    · exact after (h y List.mem_cons_self) fun _ => ih hrest hx

end Says

end Drafting

namespace Blueprint

variable {g : Graph} {root : Option String} {e : Edge} {p : Program} {d : Draft} {l : Ledger}

section Joins

variable (hb : (g.index.blueprint root).Coherent) (he : e ∈ g.edges) (hv : g.verdict e = .role .dataFlow)

include hb he hv

theorem addEdge_mem_graphContent_iff {members : List String} {builder builder' name : String}
    {limits : List Limit} :
    .addEdge builder' ((g.index.blueprint root).identOf e.source) ((g.index.blueprint root).identOf e.target) ∈
        (g.index.blueprint root).graphContent builder name members limits ↔
      builder' = builder ∧ e.source ∈ members ∧ e.target ∈ members := by
  obtain ⟨⟨n, hn, hk⟩, n', hn', hk'⟩ := Graph.verdict_dataFlow hv
  rw [addEdge_mem_graphContent, mem_steps]
  refine and_congr_right fun _ => ⟨?_, ?_⟩
  · -- Identifiers tell nodes apart, so what is joined are the ends of the edge.
    rintro ⟨m, hm, next, hnext, hflow, hs, ht⟩
    obtain ⟨e', -, hv', rfl, rfl⟩ := Index.mem_dataSuccessors_iff_edge.mp hflow
    obtain ⟨⟨_, hms, hms'⟩, _, hmt, hmt'⟩ := Graph.verdict_dataFlow hv'
    rw [hb.identOf_inj hn hk hms hms' hs, hb.identOf_inj hn' hk' hmt hmt' ht]
    exact ⟨hm, hnext⟩
  · rintro ⟨hs, ht⟩
    exact ⟨_, hs, _, ht, Index.mem_dataSuccessors_iff_edge.mpr ⟨e, he, hv, rfl, rfl⟩, rfl, rfl⟩

variable (hacc : (g.index.blueprint root).Accounts root p d l)

include hacc

theorem Accounts.members_of_joins
    (h : p.Joins ((g.index.blueprint root).identOf e.source) ((g.index.blueprint root).identOf e.target)) :
    (∃ c, g.IsContainer c ∧ e.source ∈ g.index.members c ∧ e.target ∈ g.index.members c) ∨
      root = none ∧ e.source ∈ g.index.topLevel ∧ e.target ∈ g.index.topLevel := by
  obtain ⟨builder, -, hj⟩ := h
  rcases hacc.exists_content (Program.mem_joints.mp hj) rfl with ⟨q, -, -, hq⟩ | ⟨f, hf, hcf⟩
  · rcases mem_content hq with ⟨_, hc⟩ | ⟨-, _, _, hc⟩ | ⟨_, -, hc⟩ | ⟨settings, hkind, hg⟩
    · cases hc
    · cases hc
    · cases hc
    · have hinput : ((g.index.blueprint root).kindOf q.id).isInput = false := by
        rw [hkind]
        rfl
      exact Or.inl ⟨q.id, ⟨_, settings, node?_of_kind hinput, hkind⟩, ((addEdge_mem_graphContent_iff hb he hv).mp hg).2⟩
  · cases root with
    | some r => cases hf
    | none =>
      obtain rfl := List.mem_singleton.mp hf
      obtain ⟨-, hs, ht⟩ := (addEdge_mem_graphContent_iff hb he hv).mp hcf
      exact Or.inr ⟨rfl, mem_distinct.mp hs, mem_distinct.mp ht⟩

variable (ha : (g.index.blueprint root).Agenda ((g.index.blueprint root).runServers root)
  ((g.index.blueprint root).agenda root))

include ha

theorem Accounts.joins_of_container {c : String} (hc : g.IsContainer c) (hs : e.source ∈ g.index.members c)
    (ht : e.target ∈ g.index.members c) :
    p.Joins ((g.index.blueprint root).identOf e.source) ((g.index.blueprint root).identOf e.target) := by
  obtain ⟨n, settings, hn, hkind⟩ := hc
  have hk : (g.index.blueprint root).kindOf c = .container settings :=
    (kindOf_eq (b := g.index.blueprint root) hn).trans hkind
  have hex : c ∈ g.index.executables := Index.mem_executables_of_node? hn (by rw [hkind]; rfl)
  obtain ⟨q, hq, rfl, hpart⟩ := isOwned_of_executable hb.acyclic root hex
  have hsub := hacc.content_subset hb ha (hacc.complete q hq) hpart
  rw [content_of_container hk] at hsub
  refine ⟨_, hsub newBuilder_mem_graphContent, Program.mem_joints.mpr (hsub ?_)⟩
  exact (addEdge_mem_graphContent_iff hb he hv).mpr ⟨rfl, hs, ht⟩

omit ha in
theorem Accounts.joins_of_topLevel (hroot : root = none) (hs : e.source ∈ g.index.topLevel)
    (ht : e.target ∈ g.index.topLevel) :
    p.Joins ((g.index.blueprint root).identOf e.source) ((g.index.blueprint root).identOf e.target) := by
  subst hroot
  have hsub := hacc.workflow_subset (List.mem_singleton_self _)
  refine ⟨workflowBuilder, hsub (Code.mem_piecesAll_of_mem newBuilder_mem_graphContent),
    Program.mem_joints.mpr (hsub (Code.mem_piecesAll_of_mem ?_))⟩
  exact (addEdge_mem_graphContent_iff hb he hv).mpr ⟨rfl, mem_distinct.mpr hs, mem_distinct.mpr ht⟩

theorem Accounts.joins_iff :
    p.Joins ((g.index.blueprint root).identOf e.source) ((g.index.blueprint root).identOf e.target) ↔
      (∃ c, g.IsContainer c ∧ e.source ∈ g.index.members c ∧ e.target ∈ g.index.members c) ∨
        root = none ∧ e.source ∈ g.index.topLevel ∧ e.target ∈ g.index.topLevel := by
  refine ⟨hacc.members_of_joins hb he hv, ?_⟩
  rintro (⟨c, hc, hs, ht⟩ | ⟨hroot, hs, ht⟩)
  · exact hacc.joins_of_container hb he hv ha hc hs ht
  · exact hacc.joins_of_topLevel hb he hv hroot hs ht

end Joins

theorem warnUnchained_says {b : Blueprint} {source target : String} (hs : source ∈ b.index.topLevel)
    (ht : target ∈ b.index.dataSuccessors source) :
    b.warnUnchained.Says ("Linear mode runs a single node; the connection from '" ++ b.index.nameOf source ++
      "' to '" ++ b.index.nameOf target ++ "' is not executed") := by
  refine .forM (fun _ _ => ?_) hs (.forM (fun _ _ => Keeps.warn) ht .warn)
  exact Keeps.forM fun _ _ => Keeps.warn

theorem linearRun_says {b : Blueprint} (hb : b.Coherent) {r message : String} (h : b.warnUnchained.Says message) :
    (b.linearRun (b.code .standard) .linear r).Says message := by
  refine .after (declareInstance_keeps (code_keeps hb)) fun name => ?_
  refine .after (Keeps.ofExcept fun _ _ => trivial) fun n => ?_
  refine .after (Keeps.forM fun id _ => Keeps.discard (declareIdle_keeps hb)) fun _ => ?_
  exact h.bind fun _ => Keeps.pure trivial

end Blueprint

namespace Compilation

variable {g : Graph} {options : Options}

theorem unfollowed_mem_warnings (h : (Compilation.mk g options .standard).compile.isSuccess = true)
    (hm : options.mode = .linear) {e : Edge} (he : e ∈ g.edges) (hv : g.verdict e = .role .dataFlow)
    (hs : e.source ∈ g.index.topLevel) :
    g.unfollowed e ∈ (Compilation.mk g options .standard).compile.warnings := by
  obtain ⟨p, hp, -⟩ := exists_program h
  obtain ⟨hvalid, gen, d, hg, -⟩ := exists_generated hp
  obtain ⟨root, hroot, -⟩ := Index.rootIn_of_valid hvalid (g.index.effectiveMode options.mode)
  have hb := Blueprint.coherent_of_isAcyclic (Index.isAcyclic hvalid) root
  have hrun : ((g.index.blueprint root).run ((g.index.blueprint root).code .standard) options.mode root).Says
      (g.unfollowed e) := by
    cases root with
    | none =>
      have hgraph := (Index.root_eq_none_iff hroot).mp rfl
      rw [hm] at hgraph
      cases hgraph
    | some r =>
      rw [hm]
      refine Blueprint.linearRun_says hb (Blueprint.warnUnchained_says hs ?_)
      exact Index.mem_dataSuccessors_iff_edge.mpr ⟨e, he, hv, rfl, rfl⟩
  have hgen : (g.index.generate options .standard).Ends .empty (fun gen _ => g.unfollowed e ∈ gen.warnings)
      fun _ => True := by
    rw [Index.generate_eq hroot]
    apply ends_bind.mpr
    refine (hrun .empty Draft.isKnown_empty).mono ?_ fun _ h => h
    rintro r d ⟨hd, hw⟩
    refine ends_bind.mpr ((Blueprint.program_keeps d hd).mono ?_ fun _ h => h)
    rintro p d' ⟨-, -, hsub⟩
    exact List.mem_append_right _ (hsub hw)
  rw [compile_of_ok hvalid hg]
  exact List.mem_append_right _ (hgen.of_run hg)

end Compilation

/-- An agent that passes data to a container of two agents, of which one passes data to the other. -/
def Graph.relay : Graph where
  nodes := [⟨"in", "Prompt", .input .default⟩, ⟨"x", "Planner", .agent .default⟩,
    ⟨"c", "Flow", .container .default⟩, ⟨"a", "Writer", .agent .default⟩, ⟨"b", "Editor", .agent .default⟩,
    ⟨"out", "Result", .output .default⟩]
  edges := [⟨"in", .output, "x", .userInput⟩, ⟨"x", .output, "c", .userInput⟩, ⟨"a", .output, "b", .userInput⟩,
    ⟨"c", .subAgents, "a", .orchestratorInput⟩, ⟨"c", .subAgents, "b", .orchestratorInput⟩,
    ⟨"c", .output, "out", .input⟩]

namespace Compilation

example : (Compilation.mk .relay .default .standard).program?.map Program.joints =
    some [("flow_builder", "writer", "editor"), ("workflow_builder", "planner", "flow")] := by
  decide +kernel

theorem relay_isSuccess : (Compilation.mk .relay .default .standard).compile.isSuccess = true := by
  decide +kernel

end Compilation

end AgentWorkflow
