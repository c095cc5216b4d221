import AgentWorkflow.Proofs.Compile.Attachments
import AgentWorkflow.Proofs.Compile.OwnNames
import AgentWorkflow.Proofs.Compile.Recorded

/-!
What a program imports and what it uses.

A feature is recorded exactly if some piece of the program is recorded to need it. Main statement: what a program
imports it uses, except that it imports `os` for the key of a model that is made without one; and what it uses of
what can be imported it imports, unless it is the name of a part of its own.
-/

namespace AgentWorkflow

/-- Whether a model is made without a key although its settings name a variable that holds one. -/
def ModelSettings.hasIdleKey (s : ModelSettings) : Bool :=
  match s.provider with
  | .bedrock | .ollama => s.resolvedKeyVariable?.isSome
  | .openAi | .anthropic => false

/-- Some agent has a model that is made without the key which its settings name. -/
def Graph.HasIdleKey (g : Graph) : Prop :=
  ∃ id n s, g.node? id = some n ∧ n.kind.agent? = some s ∧ s.model.hasIdleKey = true

/-- An import block binds a name. -/
def Output.Binds (o : Output) (x : String) : Prop :=
  ∃ line ∈ o.imports, x ∈ Imports.boundBy line

instance (o : Output) (x : String) : Decidable (o.Binds x) :=
  inferInstanceAs (Decidable (∃ line ∈ o.imports, _))

/-- A program uses a name outside its import block. -/
def Program.Uses (p : Program) (x : String) : Prop :=
  ∃ c ∈ Code.piecesAll (Fragment.layout p.fragments), x ∈ c.uses

instance (p : Program) (x : String) : Decidable (p.Uses x) :=
  inferInstanceAs (Decidable (∃ c ∈ Code.piecesAll (Fragment.layout p.fragments), _))

namespace Code

variable {c : Code} {f : Feature}

theorem isSome_keyVariable (s : ModelSettings) :
    s.resolvedKeyVariable?.isSome = (looksUpKey s || s.hasIdleKey) := by
  unfold looksUpKey ModelSettings.hasIdleKey
  cases s.provider <;> simp

/-- All features that a piece is recorded to need are used by it, but for `os` of a model that is made without its
key. -/
theorem mem_features_iff : f ∈ c.features ↔
    f ∈ c.usedFeatures ∨ f = .os ∧ ∃ name s, c = .model name s ∧ s.hasIdleKey = true := by
  cases c with
  | model name s =>
    simp only [features, usedFeatures, isSome_keyVariable, model.injEq]
    cases looksUpKey s <;> cases hidle : s.hasIdleKey <;> simp [hidle]
  | _ => simp [usedFeatures]

end Code

namespace Program

variable {p : Program} {c : Code}

theorem mem_layout_of_mem_pieces (hc : c ∈ p.pieces) (hplain : ∀ stmt, c ≠ .plain stmt) :
    c ∈ Code.piecesAll (Fragment.layout p.fragments) := by
  rcases Program.mem_pieces hc with ⟨stmt, he⟩ | ⟨f, hf, hc⟩
  · exact absurd he (hplain stmt)
  · exact Fragment.piecesAll_subset_layout hf hc

theorem mem_pieces_of_mem_layout (hc : c ∈ Code.piecesAll (Fragment.layout p.fragments)) : c ∈ p.pieces := by
  unfold Program.pieces Program.code
  rw [Code.piecesAll_append]
  exact List.mem_append_right _ (List.mem_cons_of_mem _ hc)

end Program

namespace Blueprint

variable {b : Blueprint} {root : Option String} {p : Program} {d : Draft} {l : Ledger} {c : Code} {id name : String}
  {f : Feature} {s : ModelSettings}

theorem model_not_mem_graphContent {builder graph : String} {members : List String} {limits : List Limit} :
    .model name s ∉ b.graphContent builder graph members limits := by
  intro h
  rcases mem_graphContent h with ⟨_, -, he⟩ | he | he | ⟨_, _, he⟩ | ⟨_, he⟩ | ⟨_, he⟩
  all_goals cases he

theorem model_mem_content : .model name s ∈ b.content id ↔
    name = b.nameIn id .model ∧ ∃ a, (b.kindOf id).agent? = some a ∧ a.model = s := by
  unfold content
  split <;> rename_i hk
  · simp [agentContent, hk, NodeKind.agent?, eq_comm]
  · simp [agentContent, hk, NodeKind.agent?, eq_comm]
  · simp [hk, NodeKind.agent?]
  · simp [hk, NodeKind.agent?, model_not_mem_graphContent]
  · cases hkind : b.kindOf id <;> simp_all [NodeKind.agent?]

section Program

variable (hb : b.Coherent) (ha : b.Agenda (b.runServers root) (b.agenda root)) (hacc : b.Accounts root p d l)

include hacc

theorem Accounts.model_not_mem_workflow {e : Fragment} (he : e ∈ b.workflow root) : .model name s ∉ e.code := by
  cases root with
  | some r => cases he
  | none =>
    rw [List.mem_singleton.mp he]
    exact model_not_mem_graphContent

include hb ha

theorem Accounts.mem_features_iff (hrec : Records {f | f = .graphBuilder ∧ root = none} p d) :
    f ∈ p.imports.features ↔ ∃ c ∈ Code.piecesAll (Fragment.layout p.fragments), f ∈ c.features := by
  constructor
  · intro hf
    have hpiece : ∃ c ∈ p.pieces, f ∈ c.features := by
      rcases hrec.settled f hf with ⟨rfl, rfl⟩ | ⟨e, he, hnode, c, hc, hf⟩
      · refine ⟨.newBuilder workflowBuilder, ?_, List.mem_singleton_self _⟩
        apply hacc.workflow_subset (List.mem_singleton_self _)
        exact Code.mem_piecesAll_of_mem List.mem_cons_self
      · have hmem : e ∈ l.emissions := by
          rw [← hacc.emitted, List.mem_filter, List.mem_reverse]
          exact ⟨he, Option.isSome_iff_ne_none.mpr hnode⟩
        obtain ⟨⟨q, g⟩, hq, rfl⟩ := List.mem_map.mp hmem
        exact ⟨c, hacc.piecesAll_subset hb ha hq hc, hf⟩
    obtain ⟨c, hc, hf⟩ := hpiece
    refine ⟨c, Program.mem_layout_of_mem_pieces hc ?_, hf⟩
    rintro stmt rfl
    cases hf
  · rintro ⟨c, hc, hf⟩
    exact hrec.recorded c (Program.mem_pieces_of_mem_layout hc) f hf

end Program

section Graph

variable {g : Graph} {root : Option String} {p : Program} {d : Draft} {l : Ledger} {c : Code} {x : String}
  (hb : (g.index.blueprint root).Coherent)
  (ha : (g.index.blueprint root).Agenda ((g.index.blueprint root).runServers root)
    ((g.index.blueprint root).agenda root))
  (hacc : (g.index.blueprint root).Accounts root p d l)

include hb ha hacc

theorem exists_model_iff {holds : ModelSettings → Prop} :
    (∃ name s, .model name s ∈ Code.piecesAll (Fragment.layout p.fragments) ∧ holds s) ↔
      ∃ id n a, g.node? id = some n ∧ n.kind.agent? = some a ∧ holds a.model := by
  constructor
  · rintro ⟨name, s, hc, hs⟩
    rcases hacc.exists_content (Program.mem_pieces_of_mem_layout hc) rfl with ⟨q, -, -, hcontent⟩ | ⟨e, he, hc⟩
    · obtain ⟨-, a, hk, rfl⟩ := model_mem_content.mp hcontent
      have hn : (g.index.blueprint root).index.node? q.id = some ((g.index.blueprint root).nodeOf q.id) := by
        apply node?_of_kind
        cases hkind : (g.index.blueprint root).kindOf q.id <;> simp_all [NodeKind.agent?, NodeKind.isInput]
      exact ⟨q.id, _, a, hn, hk, hs⟩
    · exact absurd hc (hacc.model_not_mem_workflow he)
  · rintro ⟨id, n, a, hn, hk, hs⟩
    have hexecutable : n.kind.isExecutable = true := n.kind.isExecutable_of_agent? (by rw [hk]; rfl)
    obtain ⟨q, hq, rfl, hpart⟩ := isOwned_of_executable hb.acyclic root
      (Index.mem_executables_of_node? hn hexecutable)
    have hmodel : .model ((g.index.blueprint root).nameIn q.id .model) a.model ∈
        (g.index.blueprint root).content q.id := by
      apply model_mem_content.mpr
      refine ⟨rfl, a, ?_, rfl⟩
      rwa [kindOf_eq (b := g.index.blueprint root) hn]
    have hpiece := hacc.content_subset hb ha (hacc.complete q hq) hpart hmodel
    exact ⟨_, _, Program.mem_layout_of_mem_pieces hpiece (by simp), hs⟩

omit hb ha in
theorem isRegular_of_mem (hbuiltins : ∀ s, .builtin s ∈ c.features → s ∈ Builtin.symbols)
    (hc : c ∈ Code.piecesAll (Fragment.layout p.fragments)) : c.IsRegular where
  words x hx := ((hacc.names hc).own x hx).isWord
  symbols := hbuiltins
  plain := (hacc.names hc).silent

end Graph

end Blueprint

namespace Compilation

variable {g : Graph} {options : Options}

/-- A generated program imports a name that can be imported only if it uses the name, or if it is `os` and some
agent's model is made without its key; and it imports what its pieces use, but for the functions and clients of its
own that they mention. -/
theorem compile_imports_used (h : (Compilation.mk g options .standard).compile.isSuccess = true) :
    ∃ p root, (Compilation.mk g options .standard).program? = some p ∧
      (Compilation.mk g options .standard).compile.sourceText = p.text ∧
      g.index.rootIn (g.index.effectiveMode options.mode) = .ok root ∧
      ∀ x ∈ Imports.optional,
        ((Compilation.mk g options .standard).compile.Binds x → p.Uses x ∨ x = "os" ∧ g.HasIdleKey) ∧
        (x = "os" ∧ g.HasIdleKey → (Compilation.mk g options .standard).compile.Binds x) ∧
        ∀ c ∈ Code.piecesAll (Fragment.layout p.fragments), x ∈ c.uses →
          (Compilation.mk g options .standard).compile.Binds x ∨ x ∈ c.mentions ∧
            (x ∈ (Toolbox.ofNodes g.nodes).functions ∨
              ∃ id t, (g.index.blueprint root).symbols.name? id .client = some x ∧ x = Imports.opener t) := by
  obtain ⟨p, root, l, hp, htext, hr, hb, ha, hacc⟩ := exists_accounts h
  refine ⟨p, root, hp, htext, hr, fun x hx => ?_⟩
  have hfeatures (f : Feature) := hacc.mem_features_iff hb ha (records hp hr) (f := f)
  have hbinds : (Compilation.mk g options .standard).compile.Binds x ↔
      ∃ f, (∃ c ∈ Code.piecesAll (Fragment.layout p.fragments), f ∈ c.features) ∧ x ∈ f.names := by
    unfold Output.Binds
    rw [imports_eq hp, Imports.bound_iff (builtins_subset hp) hx]
    simp only [hfeatures]
  have hregular (c : Code) (hc : c ∈ Code.piecesAll (Fragment.layout p.fragments)) : c.IsRegular := by
    apply Blueprint.isRegular_of_mem hacc _ hc
    intro s hs
    exact builtins_subset hp (Imports.mem_builtins.mpr ((hfeatures _).mpr ⟨c, hc, hs⟩))
  have hidle : (∃ name s, .model name s ∈ Code.piecesAll (Fragment.layout p.fragments) ∧ s.hasIdleKey = true) ↔
      g.HasIdleKey := Blueprint.exists_model_iff hb ha hacc
  rw [hbinds]
  refine ⟨?_, ?_, ?_⟩
  · rintro ⟨f, ⟨c, hc, hf⟩, hname⟩
    rcases Code.mem_features_iff.mp hf with hf | ⟨rfl, name, s, rfl, hs⟩
    · obtain ⟨ns, -, hreads⟩ := c.exists_reads (hregular c hc)
      refine Or.inl ⟨c, hc, (hreads x hx).mpr (List.mem_append_left _ ?_)⟩
      exact List.mem_flatMap.mpr ⟨f, hf, hname⟩
    · exact Or.inr ⟨List.mem_singleton.mp hname, hidle.mp ⟨name, s, hc, hs⟩⟩
  · rintro ⟨rfl, hkey⟩
    obtain ⟨name, s, hc, hs⟩ := hidle.mpr hkey
    refine ⟨.os, ⟨_, hc, ?_⟩, List.mem_singleton_self _⟩
    exact Code.mem_features_iff.mpr (Or.inr ⟨rfl, name, s, rfl, hs⟩)
  · intro c hc huses
    obtain ⟨ns, hns, hreads⟩ := c.exists_reads (hregular c hc)
    rcases List.mem_append.mp ((hreads x hx).mp huses) with hfeature | hown
    · obtain ⟨f, hf, hname⟩ := List.mem_flatMap.mp hfeature
      exact Or.inl ⟨f, ⟨c, hc, Code.mem_features_iff.mpr (Or.inl hf)⟩, hname⟩
    · have hmention : x ∈ c.mentions := hns hown
      exact Or.inr ⟨hmention, ((hacc.names hc).own x hmention).eq_opener hb hx⟩

end Compilation

/-- An agent with a hosted model that needs no key, and a variable for one. -/
def Graph.keyedWriter : Graph where
  nodes := [⟨"in", "Prompt", .input .default⟩,
    ⟨"a", "Writer", .agent { AgentSettings.default with
      model := { ModelSettings.default with provider := .bedrock, keyVariable := some "KEY" } }⟩,
    ⟨"out", "Result", .output .default⟩]
  edges := [⟨"in", .output, "a", .userInput⟩, ⟨"a", .output, "out", .input⟩]

namespace Compilation

/-- The module `os` is imported and not used. -/
theorem keyedWriter_imports_unused :
    (Compilation.ofGraph .keyedWriter).compile.isSuccess = true ∧ "os" ∈ Imports.optional ∧
      (Compilation.ofGraph .keyedWriter).compile.Binds "os" ∧
      (Compilation.ofGraph .keyedWriter).program?.map (fun p => decide (p.Uses "os")) = some false := by
  decide +kernel

/-- The program of an agent with a tool server uses everything that it imports beside `os`. -/
theorem stdioServer_imports_used :
    (Compilation.mk .stdioServer .default .standard).compile.isSuccess = true ∧
      ∃ p, (Compilation.mk .stdioServer .default .standard).program? = some p ∧
        ∀ x ∈ Imports.optional, x ≠ "os" →
          (Compilation.mk .stdioServer .default .standard).compile.Binds x → p.Uses x := by
  have success : (Compilation.mk .stdioServer .default .standard).compile.isSuccess = true := by decide +kernel
  obtain ⟨p, root, hp, -, -, hall⟩ := compile_imports_used success
  refine ⟨success, p, hp, fun x hx hos hbinds => ?_⟩
  obtain ⟨hused, -⟩ := hall x hx
  exact (hused hbinds).resolve_right fun hidle => hos hidle.1

end Compilation

end AgentWorkflow
