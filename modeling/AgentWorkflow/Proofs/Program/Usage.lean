import AgentWorkflow.Proofs.Program.Pieces
import AgentWorkflow.Proofs.Program.Reads
import AgentWorkflow.Proofs.Program.Scope

/-!
What the pieces of a program use of what can be imported.

Main statement: for each feature that a piece is recorded to need, it uses the imported names, except that some
models are recorded to need `os` without using it; and what else a piece uses are names of the program's own parts.
-/

namespace AgentWorkflow

mutual

/-- The names that a statement uses: those in its texts, but not what it assigns to or names an argument. -/
def Stmt.names : Stmt → List String
  | .line text => Text.names text
  | .blank | .comment _ => []
  | .block header body => Text.names header ++ Stmt.namesAll body
  | .call _ callee args => Text.names callee ++ args.flatMap fun a => Text.names a.value

def Stmt.namesAll : List Stmt → List String
  | [] => []
  | stmt :: rest => stmt.names ++ namesAll rest

end

theorem Stmt.namesAll_append (stmts rest : List Stmt) :
    namesAll (stmts ++ rest) = namesAll stmts ++ namesAll rest := by
  induction stmts with
  | nil => rfl
  | cons stmt stmts ih => rw [List.cons_append, namesAll, namesAll, ih, List.append_assoc]

def ToolEntry.name : ToolEntry → String
  | .symbol name | .function name | .delegate name | .listed name => name

namespace Code

/-- A piece of code without the pieces inside it. -/
def bare : Code → Code
  | .toolFunction name description _ => .toolFunction name description []
  | .withClients clients _ => .withClients clients []
  | .main _ => .main []
  | c => c

/-- The names that a piece of code uses itself. The code of a custom tool counts as a use of `tool`, whatever it
says. -/
def uses : Code → List String
  | .definition .. => ["tool"]
  | c => Stmt.namesAll c.bare.stmts

/-- The names of parts that a piece of code mentions itself. -/
def mentions (c : Code) : List String :=
  c.reads ++ c.bare.binds

mutual

theorem mem_namesAll_stmts {x : String} : ∀ {c : Code},
    x ∈ Stmt.namesAll c.stmts ↔ ∃ d ∈ c.pieces, x ∈ Stmt.namesAll d.bare.stmts
  | .toolFunction _ _ body | .withClients _ body | .main body => by
    have hbody : x ∈ Stmt.namesAll (stmtsAll body) ↔ _ := mem_namesAll_stmtsAll
    simp [stmts, pieces, bare, Stmt.namesAll, Stmt.names, hbody, stmtsAll, or_assoc]
  | .plain _ | .model .. | .agent .. | .swarm .. | .newBuilder _ | .addNode .. | .addEdge .. | .entryPoint ..
  | .limit .. | .build .. | .client .. | .definition .. | .decorate _ | .answer .. | .drive .. => by
    simp [pieces, bare]

theorem mem_namesAll_stmtsAll {x : String} : ∀ {code : List Code},
    x ∈ Stmt.namesAll (stmtsAll code) ↔ ∃ d ∈ piecesAll code, x ∈ Stmt.namesAll d.bare.stmts
  | [] => by simp [stmtsAll, piecesAll, Stmt.namesAll]
  | c :: rest => by
    rw [stmtsAll, Stmt.namesAll_append, List.mem_append, mem_namesAll_stmts, mem_namesAll_stmtsAll, piecesAll]
    simp only [List.mem_append, or_and_right, exists_or]

end

end Code

/-- Of the names that can be imported, the values of arguments use just those of a list. -/
def Arg.AllRead (args : List Arg) (ns : List String) : Prop :=
  ∀ x ∈ Imports.optional, (∃ a ∈ args, x ∈ Text.names a.value) ↔ x ∈ ns

namespace Arg.AllRead

variable {a : Arg} {args more : List Arg} {ns ms : List String}

theorem nil : AllRead [] [] := by
  simp [AllRead]

theorem cons (h : Text.Reads a.value ns) (h' : AllRead args ms) : AllRead (a :: args) (ns ++ ms) := by
  intro x hx
  rw [List.mem_append, ← h.names x hx, ← h' x hx]
  simp

theorem append (h : AllRead args ns) (h' : AllRead more ms) : AllRead (args ++ more) (ns ++ ms) := by
  intro x hx
  rw [List.mem_append, ← h x hx, ← h' x hx]
  simp only [List.mem_append, or_and_right, exists_or]

theorem skip (h : Text.Reads a.value []) (h' : AllRead args ns) : AllRead (a :: args) ns :=
  cons h h'

theorem silent (h : ∀ a ∈ args, Text.Reads a.value []) : AllRead args [] := by
  induction args with
  | nil => exact nil
  | cons a rest ih =>
    obtain ⟨ha, hrest⟩ := List.forall_mem_cons.mp h
    exact skip ha (ih hrest)

theorem cons_silent (h : Text.Reads a.value ns) (h' : ∀ a ∈ args, Text.Reads a.value []) :
    AllRead (a :: args) ns := by
  have hcons := cons h (silent h')
  rwa [List.append_nil] at hcons

theorem append_silent (h : AllRead args ns) (h' : ∀ a ∈ more, Text.Reads a.value []) :
    AllRead (args ++ more) ns := by
  have happend := h.append (silent h')
  rwa [List.append_nil] at happend

end Arg.AllRead

namespace Stmt

/-- Of the names that can be imported, statements use just those of a list. -/
def Reads (stmts : List Stmt) (ns : List String) : Prop :=
  ∀ x ∈ Imports.optional, x ∈ namesAll stmts ↔ x ∈ ns

instance (stmts : List Stmt) (ns : List String) : Decidable (Reads stmts ns) :=
  inferInstanceAs (Decidable (∀ x ∈ Imports.optional, _))

namespace Reads

variable {stmts rest : List Stmt} {ns ms : List String} {text callee : String} {target : Option String}
  {args : List Arg}

theorem nil : Reads [] [] := fun _ _ => Iff.rfl

theorem line (h : Text.Reads text ns) (h' : Reads rest ms) : Reads (.line text :: rest) (ns ++ ms) := by
  intro x hx
  rw [namesAll, names, List.mem_append, List.mem_append, h.names x hx, h' x hx]

theorem block (h : Text.Reads text ns) (hbody : Reads stmts []) (h' : Reads rest ms) :
    Reads (.block text stmts :: rest) (ns ++ ms) := by
  intro x hx
  rw [namesAll, names, List.mem_append, List.mem_append, List.mem_append, h.names x hx, hbody x hx, h' x hx]
  simp

theorem call (h : Text.Reads callee ns) (hargs : Arg.AllRead args ms) :
    Reads [.call target callee args] (ns ++ ms) := by
  intro x hx
  rw [namesAll, names, namesAll, List.append_nil, List.mem_append, List.mem_append, List.mem_flatMap, h.names x hx,
    hargs x hx]

theorem lineOnly (h : Text.Reads text ns) : Reads [.line text] ns := by
  have hline := line h nil
  rwa [List.append_nil] at hline

theorem method {receiver name : String} (hreceiver : Text.IsWord receiver)
    (hname : Text.Reads name [] ∧ Text.BeginsApart name) (hargs : Arg.AllRead args ns) :
    Reads [.call target (receiver ++ name) args] (receiver :: ns) :=
  call ((Text.Reads.word hreceiver).append hname.1 (Or.inr hname.2)) hargs

theorem assign {target name : String} (h : Text.Reads callee [name]) (hargs : Arg.AllRead args ms) :
    Reads [.assign target callee args] (name :: ms) :=
  call h hargs

end Reads

end Stmt

namespace Code

open Text (osIf mem_osIf)

/-- The models of some providers look a key up; others are made without one. -/
def looksUpKey (s : ModelSettings) : Bool :=
  match s.provider with
  | .openAi | .anthropic => s.resolvedKeyVariable?.isSome
  | .bedrock | .ollama => false

theorem clientArgs_reads (s : ModelSettings) (withHost : Bool) :
    Text.Reads (clientArgs s withHost) (osIf s.resolvedKeyVariable?.isSome) := by
  let host : List String := if withHost then (s.host.bind Text.nonBlank?).toList else []
  -- Each entry with whether it looks a variable up.
  let entries : List ((String × String) × Bool) :=
    (s.resolvedKeyVariable?.toList.map fun name => ((Literal.line "api_key", EnvText.lookup name none), true)) ++
      host.map fun h => ((Literal.line "base_url", Literal.line h), false)
  have hentries : ∀ e ∈ entries, Text.Reads e.1.1 [] ∧ Text.Reads e.1.2 (osIf e.2) := by
    intro e he
    rcases List.mem_append.mp he with he | he
    · obtain ⟨name, -, rfl⟩ := List.mem_map.mp he
      exact ⟨.line _, .lookup name none⟩
    · obtain ⟨h, -, rfl⟩ := List.mem_map.mp he
      exact ⟨.line _, .line h⟩
  have h := Text.Reads.flatMap_osIf (Text.Reads.dict hentries)
  have hany : entries.any Prod.snd = s.resolvedKeyVariable?.isSome := by
    cases hkey : s.resolvedKeyVariable? <;> simp [entries, hkey]
  rw [hany] at h
  convert h using 1
  unfold clientArgs
  cases withHost <;> simp [entries, host, Function.comp_def]

theorem modelStmt_reads (name : String) (s : ModelSettings) :
    Stmt.Reads [modelStmt name s] (Imports.modelClass s.provider :: osIf (looksUpKey s)) := by
  have hid : Text.Reads (Literal.line s.resolvedModel) [] := .line _
  have htemperature : Text.Reads (Literal.number s.temperature) [] := .number _
  have htokens : Text.Reads (toString s.maxTokens) [] := .nat _
  unfold modelStmt looksUpKey
  dsimp only
  cases s.provider with
  | bedrock =>
    apply Stmt.Reads.assign (by decide)
    apply Arg.AllRead.silent
    simp [Arg.named, hid, htemperature, htokens, Text.Reads.line]
  | openAi =>
    apply Stmt.Reads.assign (by decide)
    apply Arg.AllRead.cons_silent (clientArgs_reads s true)
    have hparams : Text.Reads (Literal.dict [(Literal.line "temperature", Literal.number s.temperature),
        (Literal.line "max_tokens", toString s.maxTokens)]) [] := by
      apply Text.Reads.dict_silent
      simp [Text.Reads.line, htemperature, htokens]
    simp [Arg.named, hid, hparams]
  | anthropic =>
    apply Stmt.Reads.assign (by decide)
    apply Arg.AllRead.cons_silent (clientArgs_reads s false)
    have hparams : Text.Reads (Literal.dict [(Literal.line "temperature", Literal.number s.temperature)]) [] := by
      apply Text.Reads.dict_silent
      simp [Text.Reads.line, htemperature]
    simp [Arg.named, hid, htokens, hparams]
  | ollama =>
    apply Stmt.Reads.assign (by decide)
    apply Arg.AllRead.silent
    simp [Arg.named, hid, htemperature, htokens, Text.Reads.line]

theorem expression_reads {e : ToolEntry} (h : Text.IsWord e.name) : Text.Reads e.expression [e.name] := by
  cases e with
  | listed client =>
    have hstar : Text.Reads "*" [] ∧ Text.EndsApart "*" := by decide
    have hcall : Text.Reads ".list_tools_sync()" [] ∧ Text.BeginsApart ".list_tools_sync()" := by decide
    exact .enclosed hstar (.word h) hcall
  | _ => exact .word h

theorem agentStmt_reads {name ident modelName systemPrompt : String} {tools : List ToolEntry}
    {description : Option String} (hmodel : Text.IsWord modelName) (htools : ∀ e ∈ tools, Text.IsWord e.name) :
    Stmt.Reads [agentStmt name ident modelName systemPrompt tools description]
      ("Agent" :: modelName :: tools.map ToolEntry.name) := by
  have hfirst : Arg.AllRead [.named "name" (Literal.line ident), .named "model" modelName] [modelName] := by
    apply Arg.AllRead.skip (.line ident)
    apply Arg.AllRead.cons_silent (.word hmodel)
    simp
  have hlist : Arg.AllRead (if tools.isEmpty then []
      else [.named "tools" (Literal.list (tools.map ToolEntry.expression))]) (tools.map ToolEntry.name) := by
    split_ifs with hempty
    · rw [List.isEmpty_iff.mp hempty]
      exact .nil
    · have hentries : Text.Reads (Literal.list (tools.map ToolEntry.expression)) (tools.flatMap fun e => [e.name]) :=
        .list fun e he => expression_reads (htools e he)
      rw [← List.map_eq_flatMap] at hentries
      exact .cons_silent hentries (by simp)
  apply Stmt.Reads.assign (by decide)
  refine Arg.AllRead.append_silent (.append_silent (.append (.append_silent hfirst ?_) hlist) ?_) ?_
  · split_ifs
    · simp
    · simp [Arg.named, Text.Reads.text]
  · simp [Arg.named, Text.Reads.line]
  · have hnone : Text.Reads "None" [] := by decide
    simpa [Arg.named] using hnone

theorem swarmStmt_reads {name : String} {members : List String} {entry : Option String} {s : SwarmSettings}
    (hmembers : ∀ m ∈ members, Text.IsWord m) (hentry : ∀ m ∈ entry, Text.IsWord m) :
    Stmt.Reads [swarmStmt name members entry s] ("Swarm" :: (members ++ entry.toList)) := by
  have hfirst : Arg.AllRead
      (.positional (Literal.list members) :: (entry.toList.map fun e => .named "entry_point" e))
      (members ++ entry.toList) := by
    apply Arg.AllRead.cons (.list_words hmembers)
    cases entry with
    | none => exact .nil
    | some m => exact .cons_silent (.word (hentry m rfl)) (by simp)
  apply Stmt.Reads.assign (by decide)
  apply hfirst.append_silent
  have hnat (n : UInt32) : Text.Reads (toString n) [] := .nat n.toNat
  simp [Arg.named, Text.Reads.number, hnat]

theorem clientStmt_reads (name : String) (s : ServerSettings) : Stmt.Reads [clientStmt name s]
    ("MCPClient" :: ((Feature.transport s.transport).names ++ osIf (s.references.any EnvText.hasReference))) := by
  have hlambda : Text.Reads "lambda: " [] ∧ Text.EndsApart "lambda: " := by decide
  apply Stmt.Reads.assign (by decide)
  apply Arg.AllRead.cons_silent (.param hlambda (.connection s))
  have hnat (n : UInt32) : Text.Reads (toString n) [] := .nat n.toNat
  simp [Arg.named, hnat]

/-- What the statements of a piece of code need: its names are words, and the tools of the tool library that it lists
and the statements that it consists of are as they should be. -/
structure IsRegular (c : Code) : Prop where
  words : ∀ x ∈ c.mentions, Text.IsWord x
  symbols : ∀ s, .builtin s ∈ c.features → s ∈ Builtin.symbols
  plain : ∀ stmt, c = .plain stmt → Stmt.Reads [stmt] []

/-- Of the names that can be imported, a piece of code uses just those of a list itself. -/
def Reads (c : Code) (ns : List String) : Prop :=
  ∀ x ∈ Imports.optional, x ∈ c.uses ↔ x ∈ ns

/-- The features whose names a piece of code uses: those that it is recorded to need, without the module `os` for the
key of a model that is made without one. -/
def usedFeatures : Code → List Feature
  | .model _ s => .model s.provider :: (if looksUpKey s then [.os] else [])
  | c => c.features

theorem mem_map_name {tools : List ToolEntry} {x : String} : x ∈ tools.map ToolEntry.name ↔
    (∃ s, .symbol s ∈ tools ∧ x = s) ∨ x ∈ tools.filterMap ToolEntry.read? := by
  rw [List.mem_map, List.mem_filterMap]
  constructor
  · rintro ⟨e, he, rfl⟩
    cases e with
    | symbol s => exact Or.inl ⟨s, he, rfl⟩
    | _ => exact Or.inr ⟨_, he, rfl⟩
  · rintro (⟨s, hs, rfl⟩ | ⟨e, he, hx⟩)
    · exact ⟨_, hs, rfl⟩
    · cases e with
      | symbol s => cases hx
      | _ => exact ⟨_, he, Option.some.inj hx⟩

theorem limitStmt_reads {builder : String} (h : Text.IsWord builder) (bound : Limit) :
    Stmt.Reads [limitStmt builder bound] [builder] := by
  cases bound with
  | executionTimeout t =>
    apply Stmt.Reads.method h (by decide)
    exact .silent (by simp [Arg.positional, Text.Reads.number])
  | nodeTimeout t =>
    apply Stmt.Reads.method h (by decide)
    exact .silent (by simp [Arg.positional, Text.Reads.number])
  | maxNodeExecutions n =>
    have hnat : Text.Reads (toString n) [] := .nat n.toNat
    apply Stmt.Reads.method h (by decide)
    exact .silent (by simp [Arg.positional, hnat])
  | resetOnRevisit =>
    have htrue : Text.Reads "True" [] := by decide
    apply Stmt.Reads.method h (by decide)
    exact .silent (by simp [Arg.positional, htrue])

theorem agent_reads {name ident modelName systemPrompt : String} {tools : List ToolEntry}
    {description : Option String}
    (h : (agent name ident modelName systemPrompt tools description).IsRegular) :
    (agent name ident modelName systemPrompt tools description).Reads
      ((agent name ident modelName systemPrompt tools description).features.flatMap Feature.names ++
        (modelName :: tools.filterMap ToolEntry.read?)) := by
  have hsymbol {s : String} (hs : .symbol s ∈ tools) :
      .builtin s ∈ (agent name ident modelName systemPrompt tools description).features :=
    List.mem_cons_of_mem _ (List.mem_filterMap.mpr ⟨_, hs, rfl⟩)
  have hword : ∀ e ∈ tools, Text.IsWord e.name := by
    have hmention {x : String} (hx : x ∈ tools.filterMap ToolEntry.read?) : Text.IsWord x :=
      h.words x (List.mem_append_left _ (List.mem_cons_of_mem _ hx))
    intro e he
    cases e with
    | symbol s =>
      have library : ∀ s ∈ Builtin.symbols, s.toList.all Text.isWordChar = true := by decide
      exact List.all_eq_true.mp (library s (h.symbols s (hsymbol he)))
    | _ => exact hmention (List.mem_filterMap.mpr ⟨_, he, rfl⟩)
  intro x hx
  refine (agentStmt_reads (h.words modelName ?_) hword x hx).trans ?_
  · exact List.mem_append_left _ List.mem_cons_self
  rw [List.mem_cons, List.mem_cons, mem_map_name, List.mem_append, List.mem_flatMap, List.mem_cons]
  constructor
  · rintro (rfl | rfl | ⟨s, hs, rfl⟩ | hx)
    · exact Or.inl ⟨.agent, List.mem_cons_self, List.mem_singleton_self _⟩
    · exact Or.inr (Or.inl rfl)
    · exact Or.inl ⟨_, hsymbol hs, List.mem_singleton_self _⟩
    · exact Or.inr (Or.inr hx)
  · rintro (⟨f, hf, hx⟩ | rfl | hx)
    · rcases List.mem_cons.mp hf with rfl | hf
      · exact Or.inl (List.mem_singleton.mp hx)
      · obtain ⟨e, he, hs⟩ := List.mem_filterMap.mp hf
        split at hs
        · cases hs
          exact Or.inr (Or.inr (Or.inl ⟨_, he, List.mem_singleton.mp hx⟩))
        · cases hs
    · exact Or.inr (Or.inl rfl)
    · exact Or.inr (Or.inr (Or.inr hx))

theorem answerStmts_reads {execution : Execution} {name : String} (h : Text.IsWord name) :
    Stmt.Reads (answerStmts execution name) [name] := by
  have hresponse : Text.Reads ("response = " ++ name ++ "(query)") [name] :=
    .enclosed (by decide) (.word h) (by decide)
  have hresult : Text.Reads ("result = " ++ name ++ "(query)") [name] :=
    .enclosed (by decide) (.word h) (by decide)
  have hreturn : Stmt.Reads [.line "return str(response)"] [] := by decide
  have hswarm : Stmt.Reads (answerStmts .swarm "").tail [] := by decide +kernel
  have hgraph : Stmt.Reads (answerStmts .graph "").tail [] := by decide +kernel
  cases execution
  · exact .line hresponse hreturn
  · exact .line hresponse hreturn
  · exact .line hresult hswarm
  · exact .line hresult hgraph

theorem driveStmts_reads {execution : Execution} {name : String} (h : Text.IsWord name) :
    Stmt.Reads (driveStmts execution name) [name] := by
  have hresponse : Text.Reads ("response = " ++ name ++ "(prompt)") [name] :=
    .enclosed (by decide) (.word h) (by decide)
  have hresult : Text.Reads ("result = " ++ name ++ "(prompt)") [name] :=
    .enclosed (by decide) (.word h) (by decide)
  have hstream : Text.Reads ("async for event in " ++ name ++ ".stream_async(prompt)") [name] :=
    .enclosed (by decide) (.word h) (by decide)
  cases execution
  · exact .block hstream (by decide) (.lineOnly (by decide))
  · have hreturn : Stmt.Reads [.line "print(response)", .line "return response"] [] := by decide
    exact .line hresponse hreturn
  · have hprint : Stmt.Reads (driveStmts .swarm "").tail [] := by decide +kernel
    exact .line hresult hprint
  · have hprint : Stmt.Reads (driveStmts .graph "").tail [] := by decide +kernel
    exact .line hresult hprint

theorem features_client (name : String) (s : ServerSettings) : (client name s).features =
    [.client, .transport s.transport] ++ (if s.references.any EnvText.hasReference then [.os] else []) := by
  obtain ⟨transport, _⟩ := s
  cases transport <;> rfl

theorem newBuilder_reads {builder : String} (h : Text.IsWord builder) :
    (newBuilder builder).Reads ["GraphBuilder", builder] := by
  have hcall : Text.Reads " = GraphBuilder()" ["GraphBuilder"] := by decide
  intro x hx
  refine (Stmt.Reads.lineOnly ((Text.Reads.word h).append hcall (Or.inr (by decide))) x hx).trans ?_
  simp [or_comm]

theorem build_reads {name builder : String} (hname : Text.IsWord name) (hbuilder : Text.IsWord builder) :
    (build name builder).Reads [name, builder] := by
  have hassign : Text.IsSeparator " = " := by decide
  have hbuild : Text.Reads ".build()" [] := by decide
  exact Stmt.Reads.lineOnly
    (((Text.Reads.word hname).join hassign (.word hbuilder)).append hbuild (Or.inr (by decide)))

theorem decorate_reads {function : String} (h : Text.IsWord function) :
    (decorate function).Reads ["tool", function] := by
  have hcall : Text.Reads " = tool(" ["tool"] ∧ Text.BeginsApart " = tool(" ∧ Text.EndsApart " = tool(" ∧
      " = tool(" ≠ "" := by decide
  have hclose : Text.Reads ")" [] := by decide
  have htext := ((Text.Reads.word h).around hcall (.word h)).append hclose (Or.inr (by decide))
  intro x hx
  refine (Stmt.Reads.lineOnly htext x hx).trans ?_
  simp [or_comm]

theorem toolFunction_reads {name description : String} {body : List Code} (h : Text.IsWord name) :
    (toolFunction name description body).Reads ["tool", name] := by
  have htool : Text.Reads "@tool" ["tool"] := by decide
  have hheader : Text.Reads ("def " ++ name ++ "(query: str) -> str") [name] :=
    .enclosed (by decide) (.word h) (by decide)
  have hbody : Stmt.Reads (.line (Literal.docstring description) :: stmtsAll []) [] :=
    .lineOnly (.docstring description)
  exact Stmt.Reads.line htool (.block hheader hbody .nil)

theorem withClients_reads {clients : List String} {body : List Code} (h : ∀ name ∈ clients, Text.IsWord name) :
    (withClients clients body).Reads clients := by
  have hwith : Text.Reads "with " [] ∧ Text.EndsApart "with " := by decide
  have hcomma : Text.IsSeparator ", " := by decide
  have hclients : Text.Reads (", ".intercalate (clients.map id)) (clients.flatMap fun name => [name]) :=
    .intercalate hcomma fun name hname => .word (h name hname)
  rw [List.map_id] at hclients
  intro x hx
  refine (Stmt.Reads.block (.param hwith hclients) .nil .nil x hx).trans ?_
  simp

/-- Each piece of code uses the names of the features that it uses, and beside them only names of parts. -/
theorem exists_reads (c : Code) (h : c.IsRegular) : ∃ ns ⊆ c.mentions,
    c.Reads (c.usedFeatures.flatMap Feature.names ++ ns) := by
  have hword {x : String} (hx : x ∈ c.reads ∨ x ∈ c.bare.binds) : Text.IsWord x :=
    h.words x (List.mem_append.mpr hx)
  have hsub {ns : List String} (h : ns ⊆ c.reads) : ns ⊆ c.mentions := List.subset_append_of_subset_left _ h
  -- The fixed text of a piece uses the names of its features; the rest are words that it reads or binds.
  cases c with
  | plain stmt => exact ⟨[], List.nil_subset _, h.plain stmt rfl⟩
  | model name s =>
    refine ⟨[], List.nil_subset _, fun x hx => (modelStmt_reads name s x hx).trans ?_⟩
    simp only [usedFeatures]
    cases looksUpKey s <;> simp [Feature.names, osIf]
  | agent name ident modelName systemPrompt tools description =>
    exact ⟨modelName :: tools.filterMap ToolEntry.read?, hsub (List.Subset.refl _), agent_reads h⟩
  | swarm name members entry s =>
    refine ⟨members ++ entry.toList, hsub (List.Subset.refl _), ?_⟩
    refine swarmStmt_reads (fun m hm => hword ?_) fun m hm => hword ?_
    · exact Or.inl (List.mem_append_left _ hm)
    · exact Or.inl (List.mem_append_right _ (Option.mem_toList.mpr hm))
  | newBuilder builder =>
    have hbuilder : Text.IsWord builder := hword (Or.inr List.mem_cons_self)
    exact ⟨[builder], by simp [mentions, bare, binds], newBuilder_reads hbuilder⟩
  | addNode builder member id =>
    have hbuilder : Text.IsWord builder := hword (Or.inl List.mem_cons_self)
    have hmember : Text.IsWord member := hword (Or.inl (List.mem_cons_of_mem _ List.mem_cons_self))
    refine ⟨[builder, member], hsub (List.Subset.refl _), Stmt.Reads.method hbuilder (by decide) ?_⟩
    exact .cons_silent (.word hmember) (by simp [Arg.positional, Text.Reads.line])
  | addEdge builder source target =>
    have hbuilder : Text.IsWord builder := hword (Or.inl List.mem_cons_self)
    refine ⟨[builder], hsub (List.Subset.refl _), Stmt.Reads.method hbuilder (by decide) ?_⟩
    exact .silent (by simp [Arg.positional, Text.Reads.line])
  | entryPoint builder id =>
    have hbuilder : Text.IsWord builder := hword (Or.inl List.mem_cons_self)
    refine ⟨[builder], hsub (List.Subset.refl _), Stmt.Reads.method hbuilder (by decide) ?_⟩
    exact .silent (by simp [Arg.positional, Text.Reads.line])
  | limit builder bound =>
    have hbuilder : Text.IsWord builder := hword (Or.inl List.mem_cons_self)
    exact ⟨[builder], hsub (List.Subset.refl _), limitStmt_reads hbuilder bound⟩
  | build name builder =>
    have hname : Text.IsWord name := hword (Or.inr List.mem_cons_self)
    have hbuilder : Text.IsWord builder := hword (Or.inl List.mem_cons_self)
    exact ⟨[name, builder], by simp [mentions, reads, bare, binds], build_reads hname hbuilder⟩
  | client name s =>
    refine ⟨[], List.nil_subset _, fun x hx => (clientStmt_reads name s x hx).trans ?_⟩
    change _ ↔ x ∈ (client name s).features.flatMap Feature.names ++ []
    rw [features_client]
    cases s.references.any EnvText.hasReference <;> simp [Feature.names, osIf]
  | definition function code => exact ⟨[], List.nil_subset _, fun _ _ => Iff.rfl⟩
  | decorate function =>
    have hfunction : Text.IsWord function := hword (Or.inl List.mem_cons_self)
    exact ⟨[function], hsub (List.Subset.refl _), decorate_reads hfunction⟩
  | toolFunction name description body =>
    have hname : Text.IsWord name := hword (Or.inr List.mem_cons_self)
    exact ⟨[name], by simp [mentions, bare, binds], toolFunction_reads hname⟩
  | withClients clients body =>
    exact ⟨clients, hsub (List.Subset.refl _), withClients_reads fun name hname => hword (Or.inl hname)⟩
  | answer execution name =>
    exact ⟨[name], hsub (List.Subset.refl _), answerStmts_reads (hword (Or.inl List.mem_cons_self))⟩
  | drive execution name =>
    exact ⟨[name], hsub (List.Subset.refl _), driveStmts_reads (hword (Or.inl List.mem_cons_self))⟩
  | main body =>
    have hheader : Stmt.Reads (main []).stmts [] := by decide
    exact ⟨[], List.nil_subset _, hheader⟩

end Code

end AgentWorkflow
