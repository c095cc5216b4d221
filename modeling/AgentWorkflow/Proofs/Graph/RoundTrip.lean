import AgentWorkflow.Graph.Schema
import AgentWorkflow.Proofs.Json.Restoring

/-!
A graph is read back from the text that is written for it.
-/

namespace AgentWorkflow

open Json

theorem Handle.eq_of_ofName_eq_other {s name : String} (h : Handle.ofName s = .other name) : name = s := by
  unfold Handle.ofName at h
  split at h <;> simp_all

theorem Handle.ofName_name_ofName (s : String) : Handle.ofName (Handle.ofName s).name = Handle.ofName s := by
  cases h : Handle.ofName s with
  | other name =>
    obtain rfl := eq_of_ofName_eq_other h
    exact h
  | _ => rfl

section Settings

variable {n : ℕ}

theorem Provider.restores (p : Provider) : Provider.choice.codec.Restores n p :=
  .choice (by cases p <;> rfl)

theorem Transport.restores (t : Transport) : Transport.choice.codec.Restores n t :=
  .choice (by cases t <;> rfl)

theorem Handle.restores {h : Handle} (hname : ∃ s, h = .ofName s) : Handle.codec.Restores n h := by
  obtain ⟨s, rfl⟩ := hname
  exact .map (.text _) (Handle.ofName_name_ofName s)

theorem ModelSettings.restores {s : ModelSettings} (h : (Number.float s.temperature).ReadsBack) :
    ModelSettings.record.Restores n s := by
  refine Record.restores_of_fields (by decide) rfl (.cons (.of (Provider.restores _)) (.cons (.of (.optionalText _))
    (.cons (.of (.real h)) (.cons (.of (.word _)) (.cons (.of (.optionalText _)) (.cons (.of (.optionalText _))
      (.cons (.of (.optionalText _)) .nil))))))) rfl

theorem AgentSettings.restores {s : AgentSettings} (h : (Number.float s.model.temperature).ReadsBack) :
    AgentSettings.record.Restores n s :=
  Record.restores_of_inner (by decide) rfl (ModelSettings.restores h).inside
    (show _ = ModelSettings.record.fields.map Field.name from rfl) (by decide)
    (.cons (.of (.text _)) (.cons (.of (.flag _)) (.cons (.of (.optionalText _)) .nil))) rfl

theorem OrchestratorSettings.restores {s : OrchestratorSettings}
    (h : (Number.float s.agent.model.temperature).ReadsBack) :
    OrchestratorSettings.record.Restores n s :=
  Record.restores_of_inner (by decide) rfl (AgentSettings.restores h).inside
    (show _ = ModelSettings.record.fields.map Field.name ++ AgentSettings.record.fields.map Field.name from rfl)
    (by decide)
    (.cons (.of (.optionalText _)) .nil) rfl

theorem SwarmSettings.restores {s : SwarmSettings} (h : (Number.float s.executionTimeout).ReadsBack)
    (h' : (Number.float s.nodeTimeout).ReadsBack) : SwarmSettings.record.Restores n s :=
  Record.restores_of_fields (by decide) rfl (.cons (.of (.word _)) (.cons (.of (.word _)) (.cons (.of (.real h))
    (.cons (.of (.real h')) (.cons (.of (.word _)) (.cons (.of (.word _)) (.cons (.of (.optionalText _))
      (.cons (.of (.optionalText _)) .nil)))))))) rfl

theorem ContainerSettings.restores {s : ContainerSettings} (h : ∀ x ∈ s.executionTimeout, (Number.float x).ReadsBack)
    (h' : ∀ x ∈ s.nodeTimeout, (Number.float x).ReadsBack) : ContainerSettings.record.Restores n s :=
  Record.restores_of_fields (by decide) rfl (.cons (.of (.optionalReal h)) (.cons (.of (.optionalReal h'))
    (.cons (.of (.optionalWord _)) (.cons (.of (.flag _)) (.cons (.of (.optionalText _)) .nil))))) rfl

theorem BuiltinToolSettings.restores (s : BuiltinToolSettings) : BuiltinToolSettings.record.Restores n s :=
  Record.restores_of_fields (by decide) rfl (.cons (.of (.text _)) .nil) rfl

theorem CustomToolSettings.restores (s : CustomToolSettings) : CustomToolSettings.record.Restores n s :=
  Record.restores_of_fields (by decide) rfl (.cons (.of (.text _)) (.cons (.of (.optionalText _)) .nil)) rfl

theorem ServerSettings.restores {s : ServerSettings} (henv : (s.env.map Prod.fst).Nodup)
    (hheaders : (s.headers.map Prod.fst).Nodup) : ServerSettings.record.Restores (n + 1) s :=
  Record.restores_of_fields (by decide) rfl (.cons (.of (Transport.restores _)) (.cons (.of (.optionalText _))
    (.cons (.of (.list fun _ _ => .text _)) (.cons (.of (.table (fun _ _ => .text _) henv)) (.cons (.of (.optionalText _))
      (.cons (.of (.table (fun _ _ => .text _) hheaders)) (.cons (.of (.optionalWord _)) .nil))))))) rfl

theorem InputSettings.restores (s : InputSettings) : InputSettings.record.Restores n s :=
  Record.restores_of_fields (by decide) rfl (.cons (.of (.optionalText _)) .nil) rfl

theorem OutputSettings.restores (s : OutputSettings) : OutputSettings.record.Restores n s :=
  Record.restores_of_fields (by decide) rfl (.cons (.of (.optionalText _)) .nil) rfl

end Settings

namespace NodeKind

/-- The floating point numbers among the settings of a kind. -/
def floats : NodeKind → List Binary64
  | .agent s => [s.model.temperature]
  | .orchestrator s => [s.agent.model.temperature]
  | .swarm s => [s.executionTimeout, s.nodeTimeout]
  | .container s => s.executionTimeout.toList ++ s.nodeTimeout.toList
  | _ => []

/-- The tables among the settings of a kind. -/
def tables : NodeKind → List (List (String × String))
  | .server s => [s.env, s.headers]
  | _ => []

variable {n : ℕ}

/-- A kind reads back when its settings do, as the name of the kind leads to the form of its settings. -/
theorem restores_case {σ : Type} {kind : σ → NodeKind} {r : Record σ} {s : σ} (h : r.Restores n s)
    (hcase : union.choice.spellings.lookup (case kind r).name = some (case kind r))
    (htag : (kind s).tag = (case kind r).name)
    (hsettings : (kind s).settingsJson = r.codec.encode s) : union.codec.Restores (n + 2) (kind s) := by
  have hcontent : (union.encode (kind s)).2 = r.codec.encode s := hsettings
  refine TaggedUnion.restores (by decide) hcase htag ⟨hcontent ▸ h.codec.fits, fun origin tree hcheck => ?_⟩
  change kind <$> r.codec.decode origin tree = _
  rw [h.codec.decode_eq origin (hcontent ▸ hcheck)]
  rfl

theorem restores {kind : NodeKind} (hfloats : ∀ x ∈ kind.floats, (Number.float x).ReadsBack)
    (htables : ∀ table ∈ kind.tables, (table.map Prod.fst).Nodup) : union.codec.Restores (n + 3) kind := by
  cases kind with
  | agent s =>
    have h := AgentSettings.restores (n := n + 1) (hfloats s.model.temperature (List.mem_singleton.2 rfl))
    exact restores_case h rfl rfl rfl
  | orchestrator s =>
    have h := OrchestratorSettings.restores (n := n + 1) (hfloats s.agent.model.temperature (List.mem_singleton.2 rfl))
    exact restores_case h rfl rfl rfl
  | swarm s =>
    have h := SwarmSettings.restores (n := n + 1) (hfloats s.executionTimeout List.mem_cons_self)
      (hfloats s.nodeTimeout (List.mem_cons_of_mem _ List.mem_cons_self))
    exact restores_case h rfl rfl rfl
  | container s =>
    have h := ContainerSettings.restores (n := n + 1)
      (fun x hx => hfloats x (List.mem_append_left _ (Option.mem_toList.2 hx)))
      (fun x hx => hfloats x (List.mem_append_right _ (Option.mem_toList.2 hx)))
    exact restores_case h rfl rfl rfl
  | builtinTool s => exact restores_case (BuiltinToolSettings.restores s) rfl rfl rfl
  | customTool s => exact restores_case (CustomToolSettings.restores s) rfl rfl rfl
  | server s =>
    have h := ServerSettings.restores (n := n) (htables s.env List.mem_cons_self)
      (htables s.headers (List.mem_cons_of_mem _ List.mem_cons_self))
    exact restores_case h rfl rfl rfl
  | input s => exact restores_case (InputSettings.restores s) rfl rfl rfl
  | output s => exact restores_case (OutputSettings.restores s) rfl rfl rfl

end NodeKind

variable {n : ℕ}

theorem Node.restores {node : Node} (hfloats : ∀ x ∈ node.kind.floats, (Number.float x).ReadsBack)
    (htables : ∀ table ∈ node.kind.tables, (table.map Prod.fst).Nodup) : Node.record.Restores (n + 3) node := by
  have hkind : NodeKind.union.codec.Restores (n + 3) node.kind := NodeKind.restores hfloats htables
  exact Record.restores_of_fields (by decide) rfl (.cons (.require (.of (.text _))) (.cons (.require (.of (.text _)))
    (.cons (.require (.of hkind)) .nil))) rfl

theorem Edge.restores {e : Edge} (hsource : ∃ s, e.sourceHandle = .ofName s)
    (htarget : ∃ s, e.targetHandle = .ofName s) :
    Edge.record.Restores n e :=
  Record.restores_of_fields (by decide) rfl (.cons (.require (.of (.text _)))
    (.cons (.require (.of (Handle.restores hsource))) (.cons (.require (.of (.text _)))
      (.cons (.require (.of (Handle.restores htarget))) .nil)))) rfl

theorem Graph.restores {g : Graph} (hfloats : ∀ node ∈ g.nodes, ∀ x ∈ node.kind.floats, (Number.float x).ReadsBack)
    (htables : ∀ node ∈ g.nodes, ∀ table ∈ node.kind.tables, (table.map Prod.fst).Nodup)
    (hhandles : ∀ e ∈ g.edges, (∃ s, e.sourceHandle = .ofName s) ∧ ∃ s, e.targetHandle = .ofName s) :
    Graph.record.Restores 5 g := by
  have hnodes : Node.record.codec.list.Restores 5 g.nodes :=
    .list fun node hnode => (Node.restores (n := 0) (hfloats node hnode) (htables node hnode)).codec
  have hedges : Edge.record.codec.list.Restores 5 g.edges :=
    .list fun e he => (Edge.restores (hhandles e he).1 (hhandles e he).2).codec
  exact Record.restores_of_fields (by decide) rfl (.cons (.require (.of hnodes)) (.cons (.require (.of hedges)) .nil)) rfl

/-- A graph is read back from its printed text, and from any other text of its JSON, whatever blanks that has. Its
floating point numbers must be finite and be read from their own texts, its tables must be maps, and its handles must
have come from names. -/
theorem Graph.ofText_encode {g : Graph}
    (hfloats : ∀ node ∈ g.nodes, ∀ x ∈ node.kind.floats, x.isFinite ∧ Reading.value x.documentText = .ok (Json.float x))
    (htables : ∀ node ∈ g.nodes, ∀ table ∈ node.kind.tables, (table.map Prod.fst).Nodup)
    (hhandles : ∀ e ∈ g.edges, (∃ s, e.sourceHandle = .ofName s) ∧ ∃ s, e.targetHandle = .ofName s) :
    Graph.record.codec.ofText (Graph.record.codec.encode g).print = .ok g ∧
      ∀ text, IsText text (Graph.record.codec.encode g) → Graph.record.codec.ofText text = .ok g := by
  have h : Graph.record.codec.Restores 6 g :=
    (Graph.restores (fun node hnode x hx => .float (hfloats node hnode x hx).1 (hfloats node hnode x hx).2) htables
      hhandles).codec
  have hdepth : 6 < depthLimit := by decide
  exact ⟨h.ofText_eq (h.fits.isText_print hdepth), fun text => h.ofText_eq⟩

/-- An agent with a server and an input, named in several scripts. -/
def Graph.translation : Graph where
  nodes := [
    ⟨"übersetzer", "翻訳 \"agent\"", .agent { AgentSettings.default with streaming := true }⟩,
    ⟨"server", "", .server { ServerSettings.default with env := [("LANG", "de"), ("HOME", "$\x7bHOME\x7d")] }⟩,
    ⟨"in", "in\n", .input ⟨none⟩⟩]
  edges := [⟨"in", .output, "übersetzer", .userInput⟩, ⟨"server", .other "größe", "übersetzer", .tools⟩]

theorem Graph.ofText_encode_translation :
    Graph.record.codec.ofText (Graph.record.codec.encode Graph.translation).print = .ok Graph.translation := by
  have htemperature : ModelSettings.default.temperature.isFinite ∧
      Reading.value ModelSettings.default.temperature.documentText =
        .ok (Json.float ModelSettings.default.temperature) := by
    have htext : ModelSettings.default.temperature.documentText = "0.7" := by decide +kernel
    exact ⟨rfl, htext ▸ rfl⟩
  have hfloats : ∀ node ∈ Graph.translation.nodes, ∀ x ∈ node.kind.floats,
      x.isFinite ∧ Reading.value x.documentText = .ok (Json.float x) := by
    intro node hnode x hx
    fin_cases hnode
    · exact List.mem_singleton.1 hx ▸ htemperature
    · contradiction
    · contradiction
  have htables : ∀ node ∈ Graph.translation.nodes, ∀ table ∈ node.kind.tables, (table.map Prod.fst).Nodup := by
    decide
  have hhandles : ∀ e ∈ Graph.translation.edges,
      (∃ s, e.sourceHandle = .ofName s) ∧ ∃ s, e.targetHandle = .ofName s := by
    intro e he
    fin_cases he
    · exact ⟨⟨"output", rfl⟩, "userInput", rfl⟩
    · exact ⟨⟨"größe", rfl⟩, "tools", rfl⟩
  exact (Graph.ofText_encode hfloats htables hhandles).1

end AgentWorkflow
