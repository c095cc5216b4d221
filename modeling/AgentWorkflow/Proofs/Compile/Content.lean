import AgentWorkflow.Proofs.Compile.Blueprint
import AgentWorkflow.Proofs.Program.Layout

/-!
What the parts of nodes are made of.

The code of a part follows from the blueprint alone, except that the function that wraps a node also holds
the fragments that were put inside it. `fragmentOf` gives the fragment that declares a part.
-/

namespace AgentWorkflow.Blueprint

variable (b : Blueprint)

/-- The node of an id; an input without a label if there is none. -/
def nodeOf (id : String) : Node :=
  (b.index.node? id).getD ⟨id, "", .input .default⟩

def kindOf (id : String) : NodeKind :=
  (b.nodeOf id).kind

def identOf (id : String) : String :=
  (b.symbols.ident? id).getD ""

/-- The name in a role of a node that has an identifier. -/
def nameIn (id : String) (role : NameRole) : String :=
  b.identOf id ++ role.suffix

/-- The variable of an executable's instance. -/
def instanceName (id : String) : String :=
  b.nameIn id (b.kindOf id).instanceRole

/-- The tools attached to a node, the servers last; none if one of them does not exist. -/
def attached (id : String) : List Attachment :=
  (b.toolbelt id).toOption.getD []

/-- The function of a custom tool of the toolbox. -/
def functionOf (id : String) : String :=
  ((b.toolbox.get? id).bind CustomCode.function).getD (b.nameIn id .tool)

/-- The entry of an attached tool in a list of tools. -/
def entryOf : Attachment → ToolEntry
  | .builtin symbol => .symbol symbol
  | .custom id => .function (b.functionOf id)
  | .server id _ => .listed (b.nameIn id .client)

/-- The list of tools of an agent. -/
def toolEntries (id : String) (delegates : List String) : List ToolEntry :=
  let (servers, functions) :=
    ((b.attached id).map fun a => (a, b.entryOf a)).partition fun (a, _) => a.isServer
  functions.map (·.2) ++ delegates.map .delegate ++ servers.map (·.2)

def agentContent (id : String) (settings : AgentSettings) (delegates : List String)
    (coordination : Option String) : List Code :=
  [.model (b.nameIn id .model) settings.model,
    .agent (b.nameIn id .agent) (b.identOf id) (b.nameIn id .model)
      (settings.instructions coordination) (b.toolEntries id delegates) settings.description]

/-- The variable of the member that a swarm starts with, if its settings name one. -/
def entryMember (id : String) (settings : SwarmSettings) : Option String :=
  (settings.entryPoint.bind Text.nonBlank?).bind fun wanted =>
    (((b.index.members id).zip ((b.index.members id).map b.instanceName)).find? fun (member, _) =>
      b.isNamed (Text.trim wanted) member).map (·.2)

def graphContent (builder name : String) (members : List String) (limits : List Limit) :
    List Code :=
  let idents := members.zip (members.map b.identOf)
  .newBuilder builder ::
    (members.map fun member => .addNode builder (b.instanceName member) (b.identOf member)) ++
    ((b.steps idents).map fun (source, target) => .addEdge builder source target) ++
    ((b.starts idents).map (.entryPoint builder)) ++
    limits.map (.limit builder) ++ [.build name builder]

/-- What the instance of an executable is made of. -/
def content (id : String) : List Code :=
  match b.kindOf id with
  | .agent settings => b.agentContent id settings [] none
  | .orchestrator settings =>
    b.agentContent id settings.agent ((b.index.members id).map fun m => b.nameIn m .tool)
      settings.coordinationPrompt
  | .swarm settings =>
    [.swarm (b.instanceName id) ((b.index.members id).map b.instanceName)
      (b.entryMember id settings) settings]
  | .container settings =>
    b.graphContent (b.nameIn id .builder) (b.nameIn id .graph) (b.index.members id) settings.limits
  | _ => []

/-- The place inside the function that wraps a node. -/
def innerPlace (id : String) : Place :=
  .wrapper id (b.closures.needsScope id)

/-- Whether the function that wraps a node at a place opens servers itself. -/
def opens (id : String) (place : Place) : Bool :=
  !place.isScoped && b.closures.needsScope id

/-- What the function that wraps a node does when the node's clients are open, with the fragments put inside
it. -/
def work (id : String) (inside : List Fragment) : List Code :=
  Fragment.joinBlank (Fragment.layout inside)
    (b.content id ++ [.answer (b.kindOf id).execution (b.instanceName id)])

/-- The body of the function that wraps a node. -/
def wrapperBody (id : String) (place : Place) (inside : List Fragment) : List Code :=
  if b.opens id place then
    [.withClients ((b.closures.servers id).map fun s => b.nameIn s .client) (b.work id inside)]
  else b.work id inside

def clientContent (id : String) : List Code :=
  match b.kindOf id with
  | .server settings => [.client (b.nameIn id .client) settings]
  | _ => []

def customContent (id : String) : List Code :=
  match b.toolbox.get? id with
  | none => []
  | some custom =>
    match custom.function with
    | some function =>
      .definition function custom.code ::
        if custom.decorated then [] else [.decorate function]
    | none => [placeholder (b.nodeOf id) (b.nameIn id .tool) custom.code]

/-- The fragment that declares a part, with the fragments put inside it if it is a wrapper. -/
def fragmentOf (inside : List Fragment) (q : Demand) : Fragment :=
  match q.part with
  | .construction => ⟨(b.kindOf q.id).instanceFragment, some q.id, b.content q.id⟩
  | .wrapper =>
    ⟨.wrapper, some q.id, [.toolFunction (b.nameIn q.id .tool) (wrapperText (b.nodeOf q.id))
      (b.wrapperBody q.id q.place inside)]⟩
  | .client => ⟨.client, some q.id, b.clientContent q.id⟩
  | .customTool => ⟨.customTool, some q.id, b.customContent q.id⟩

section Fragment

variable {b} {q : Demand} {inside : List Fragment}

theorem fragmentOf_of_not_wrapper (hp : q.part ≠ .wrapper) (inside inside' : List Fragment) :
    b.fragmentOf inside q = b.fragmentOf inside' q := by
  unfold fragmentOf
  split
  · rfl
  · exact absurd ‹_› hp
  · rfl
  · rfl

theorem fragmentOf_node : (b.fragmentOf inside q).node = some q.id := by
  unfold fragmentOf
  split <;> rfl

theorem fragmentOf_wrapper_code (hq : q.part = .wrapper) : (b.fragmentOf inside q).code =
    [.toolFunction (b.nameIn q.id .tool) (wrapperText (b.nodeOf q.id)) (b.wrapperBody q.id q.place inside)] := by
  simp only [fragmentOf, hq]

theorem mem_work {id : String} {c : Code} (h : c ∈ b.work id inside) :
    (∃ f ∈ inside, c ∈ f.code) ∨ c ∈ b.content id ∨ c = .blank ∨
      c = .answer (b.kindOf id).execution (b.instanceName id) := by
  rcases Fragment.mem_joinBlank h with rfl | h | h
  · exact Or.inr (Or.inr (Or.inl rfl))
  · exact (Fragment.mem_layout h).elim (fun h => Or.inr (Or.inr (Or.inl h))) Or.inl
  · rcases List.mem_append.mp h with h | h
    · exact Or.inr (Or.inl h)
    · exact Or.inr (Or.inr (Or.inr (List.mem_singleton.mp h)))

end Fragment

section Lookup

variable {b} {id : String} {n : Node}

theorem nodeOf_eq (h : b.index.node? id = some n) : b.nodeOf id = n := by
  rw [nodeOf, h, Option.getD_some]

theorem kindOf_eq (h : b.index.node? id = some n) : b.kindOf id = n.kind := by
  rw [kindOf, nodeOf_eq h]

theorem node_eq_ok (h : b.index.node? id = some n) : b.node id = .ok (b.nodeOf id) := by
  rw [node, h, nodeOf_eq h]

theorem node?_of_kind (h : (b.kindOf id).isInput = false) : b.index.node? id = some (b.nodeOf id) := by
  cases hn : b.index.node? id with
  | none => simp [kindOf, nodeOf, hn, NodeKind.isInput] at h
  | some n => rw [nodeOf_eq hn]

variable (hb : b.Coherent)

include hb

theorem Coherent.ident?_eq (hn : b.index.node? id = some n)
    (hk : SymbolTable.needsSymbol n.kind = true) : b.symbols.ident? id = some (b.identOf id) := by
  obtain ⟨ident, hi⟩ := hb.named hn hk
  rw [identOf, hi, Option.getD_some]

theorem Coherent.name?_eq (hn : b.index.node? id = some n)
    (hk : SymbolTable.needsSymbol n.kind = true) (role : NameRole) :
    b.symbols.name? id role = some (b.nameIn id role) := by
  rw [SymbolTable.name?, hb.ident?_eq hn hk, Option.map_some, nameIn]

theorem Coherent.nameIn_inj {id' : String} {n' : Node} {role role' : NameRole} (hn : b.index.node? id = some n)
    (hk : SymbolTable.needsSymbol n.kind = true) (hn' : b.index.node? id' = some n')
    (hk' : SymbolTable.needsSymbol n'.kind = true) (h : b.nameIn id role = b.nameIn id' role') :
    id = id' ∧ role = role' :=
  hb.name_inj (hb.name?_eq hn hk role) (h ▸ hb.name?_eq hn' hk' role')

end Lookup

section Tools

/-- All tools attached to a node exist. -/
def HasTools (id : String) : Prop :=
  ∀ t ∈ b.index.tools id, (b.index.node? t).isSome

/-- What a node attaches as a tool; nothing if it is no tool. -/
def attachmentOf (t : String) : Option Attachment :=
  match b.kindOf t with
  | .builtinTool s => some (.builtin ((b.nodeOf t).builtinSymbol s))
  | .customTool _ => some (.custom t)
  | .server _ => some (.server t (b.nameIn t .client))
  | _ => none

theorem mapM_ok {α β : Type} {f : α → Except CompileError β} {f' : α → β} {l : List α}
    (h : ∀ a ∈ l, f a = .ok (f' a)) : l.mapM f = .ok (l.map f') := by
  induction l with
  | nil => rfl
  | cons a rest ih =>
    rw [List.mapM_cons, h a List.mem_cons_self, ih fun x hx => h x (List.mem_cons_of_mem a hx)]
    rfl

theorem mapM_error {α β : Type} {f : α → Except CompileError β} {l : List α} {P : CompileError → Prop}
    (h : ∀ a ∈ l, ∀ e, f a = .error e → P e) (hx : ∃ a ∈ l, ∃ e, f a = .error e) :
    ∃ e, l.mapM f = .error e ∧ P e := by
  induction l with
  | nil => simp at hx
  | cons a rest ih =>
    rw [List.mapM_cons]
    cases hf : f a with
    | error e => exact ⟨e, rfl, h a List.mem_cons_self e hf⟩
    | ok r =>
      obtain ⟨a', ha', e, he⟩ := hx
      have hr : a' ∈ rest := by
        rcases List.mem_cons.mp ha' with rfl | hr
        · rw [hf] at he
          cases he
        · exact hr
      obtain ⟨e', he', hp⟩ := ih (fun x hx => h x (List.mem_cons_of_mem a hx)) ⟨a', hr, e, he⟩
      rw [he']
      exact ⟨e', rfl, hp⟩

variable {b} {id : String}

theorem Coherent.attachment?_eq (hb : b.Coherent) {t : String} (ht : t ∈ b.index.tools id)
    (hn : (b.index.node? t).isSome) :
    b.index.attachment? b.symbols id t = .ok (b.attachmentOf t) := by
  obtain ⟨n, hn⟩ := Option.isSome_iff_exists.mp hn
  have hk := hb.tool ht hn
  simp only [Index.attachment?, hn, attachmentOf, kindOf_eq hn, nodeOf_eq hn]
  cases hkind : n.kind with
  | server s => simp only [hb.name?_eq hn (by rw [hkind]; rfl)]
  | builtinTool s => rfl
  | customTool s => rfl
  | _ => simp [hkind, NodeKind.isTool] at hk

/-- The tools of a toolbelt in the order of attachment, before servers are put last. -/
def unsorted (b : Blueprint) (id : String) : List Attachment :=
  distinct ((b.index.tools id).filterMap b.attachmentOf)

theorem Coherent.toolbelt_eq (hb : b.Coherent) (h : b.HasTools id) :
    b.toolbelt id =
      .ok (((b.unsorted id).partition fun a => !a.isServer).1 ++
        ((b.unsorted id).partition fun a => !a.isServer).2) := by
  have ha : b.index.attachments b.symbols id = .ok (b.unsorted id) := by
    rw [Index.attachments, mapM_ok fun t ht => hb.attachment?_eq ht (h t ht)]
    change Except.ok _ = _
    rw [unsorted, List.filterMap_map]
    rfl
  rw [toolbelt, ha]
  rfl

theorem Coherent.toolbelt_ok (hb : b.Coherent) (h : b.HasTools id) :
    b.toolbelt id = .ok (b.attached id) := by
  rw [attached, hb.toolbelt_eq h]
  rfl

theorem Coherent.toolbelt_error (hb : b.Coherent) (h : ¬b.HasTools id) :
    ∃ name missing, b.toolbelt id = .error (.missingTool name missing) := by
  simp only [HasTools, not_forall] at h
  obtain ⟨t, ht, hn⟩ := h
  have herr : ∀ a, ¬(b.index.node? a).isSome = true → b.index.attachment? b.symbols id a =
      .error (.missingTool (b.index.nameOf id) a) := by
    intro a ha
    simp only [Index.attachment?, Option.not_isSome_iff_eq_none.mp ha]
  obtain ⟨e, he, name, missing, rfl⟩ := mapM_error (f := b.index.attachment? b.symbols id)
    (l := b.index.tools id) (P := fun e => ∃ name missing, e = .missingTool name missing) (by
      intro a ha e he
      by_cases hs : (b.index.node? a).isSome
      · rw [hb.attachment?_eq ha hs] at he
        cases he
      · rw [herr a hs] at he
        cases he
        exact ⟨_, _, rfl⟩) ⟨t, ht, _, herr t hn⟩
  refine ⟨name, missing, ?_⟩
  rw [toolbelt, Index.attachments, he]
  rfl

theorem Coherent.mem_attached (hb : b.Coherent) {a : Attachment} (h : a ∈ b.attached id) :
    ∃ t ∈ b.index.tools id, b.attachmentOf t = some a := by
  by_cases ht : b.HasTools id
  · rw [attached, hb.toolbelt_eq ht] at h
    have hu : a ∈ b.unsorted id := by
      simp only [Except.toOption, Option.getD_some, List.partition_eq_filter_filter,
        List.mem_append, List.mem_filter] at h
      exact h.elim And.left And.left
    simpa [unsorted] using hu
  · obtain ⟨name, missing, he⟩ := hb.toolbelt_error ht
    rw [attached, he] at h
    cases h

theorem mem_toolEntries {delegates : List String} {e : ToolEntry} (h : e ∈ b.toolEntries id delegates) :
    (∃ a ∈ b.attached id, e = b.entryOf a) ∨ ∃ name ∈ delegates, e = .delegate name := by
  simp only [toolEntries, List.partition_eq_filter_filter, List.mem_append, List.mem_map,
    List.mem_filter] at h
  rcases h with (⟨_, ⟨⟨a, ha, rfl⟩, -⟩, rfl⟩ | ⟨name, hn, rfl⟩) | ⟨_, ⟨⟨a, ha, rfl⟩, -⟩, rfl⟩
  · exact Or.inl ⟨a, ha, rfl⟩
  · exact Or.inr ⟨name, hn, rfl⟩
  · exact Or.inl ⟨a, ha, rfl⟩

theorem delegate_mem_toolEntries {delegates : List String} {name : String} (h : name ∈ delegates) :
    .delegate name ∈ b.toolEntries id delegates :=
  List.mem_append_left _ (List.mem_append_right _ (List.mem_map.mpr ⟨name, h, rfl⟩))

theorem attachmentOf_custom {t t' : String} (h : b.attachmentOf t = some (.custom t')) :
    t' = t ∧ ∃ s, b.kindOf t = .customTool s := by
  unfold attachmentOf at h
  split at h <;> simp_all

theorem attachmentOf_server {t t' client : String} (h : b.attachmentOf t = some (.server t' client)) :
    t' = t ∧ client = b.nameIn t .client ∧ ∃ s, b.kindOf t = .server s := by
  unfold attachmentOf at h
  split at h <;> simp_all [eq_comm]

theorem Coherent.mem_attached_custom (hb : b.Coherent) {t : String} (h : .custom t ∈ b.attached id) :
    ∃ n s, b.index.node? t = some n ∧ n.kind = .customTool s := by
  obtain ⟨t', -, ha⟩ := hb.mem_attached h
  obtain ⟨rfl, s, hk⟩ := attachmentOf_custom ha
  exact ⟨b.nodeOf t, s, node?_of_kind (by rw [hk]; rfl), hk⟩

theorem Coherent.mem_attached_server (hb : b.Coherent) {t client : String}
    (h : .server t client ∈ b.attached id) :
    t ∈ b.index.ownServers id ∧ client = b.nameIn t .client := by
  obtain ⟨t', ht, ha⟩ := hb.mem_attached h
  obtain ⟨rfl, rfl, s, hk⟩ := attachmentOf_server ha
  have hn : b.index.node? t = some (b.nodeOf t) := node?_of_kind (by rw [hk]; rfl)
  have hs : b.index.isServer t = true := by
    rw [Index.isServer, hn, Option.any_some, ← kindOf, hk]
    rfl
  exact ⟨List.mem_filter.mpr ⟨ht, hs⟩, rfl⟩

end Tools

end AgentWorkflow.Blueprint
