import AgentWorkflow.Proofs.Compile.Attachments

/-!
How often parts are declared.

Main statement: in a compilation that succeeds, the client of a server and the function of a custom tool are
declared once, at the top level, if the tool is attached to a node that needs it, and not at all otherwise; and
no part of a node is declared twice at one place.
-/

namespace AgentWorkflow

open Drafting

/-- The kinds of the fragments that declare a part. -/
def Part.kinds : Part → List FragmentKind
  | .construction => [.agent, .composition]
  | .wrapper => [.wrapper]
  | .client => [.client]
  | .customTool => [.customTool]

/-- Whether a fragment declares a part of a node. -/
def Fragment.declares (part : Part) (id : String) (f : Fragment) : Bool :=
  f.kind ∈ part.kinds ∧ f.node = some id

/-- The places at which a part of a node was declared, in order. -/
def Draft.placesOf (d : Draft) (part : Part) (id : String) : List Place :=
  (d.emitted.reverse.filter (·.2.declares part id)).map Prod.fst

def NodeKind.isCustomTool : NodeKind → Bool
  | .customTool _ => true
  | _ => false

def NodeKind.hasAgent (kind : NodeKind) : Bool :=
  kind.agent?.isSome

/-- Whether a node of one sort is attached as a tool to a node of another sort. -/
def Graph.attaches (g : Graph) (tool consumer : NodeKind → Bool) (id : String) : Bool :=
  (g.node? id).any (fun n => tool n.kind) && g.edges.any fun e =>
    g.verdict e = .role .toolAttachment && e.source = id && (g.node? e.target).any fun n => consumer n.kind

theorem Graph.attaches_iff {g : Graph} {tool consumer : NodeKind → Bool} {id : String} :
    g.attaches tool consumer id = true ↔ (∃ n, g.node? id = some n ∧ tool n.kind = true) ∧
      ∃ x, id ∈ g.index.tools x ∧ ∃ n, g.node? x = some n ∧ consumer n.kind = true := by
  simp only [attaches, Bool.and_eq_true, List.any_eq_true, Option.any_eq_true, decide_eq_true_eq,
    Index.mem_tools_iff_edge]
  apply and_congr_right
  intro _
  constructor
  · rintro ⟨e, he, ⟨hv, rfl⟩, n, hn, hc⟩
    exact ⟨e.target, ⟨e, he, hv, rfl, rfl⟩, n, hn, hc⟩
  · rintro ⟨_, ⟨e, he, hv, hs, rfl⟩, n, hn, hc⟩
    exact ⟨e, he, ⟨hv, hs⟩, n, hn, hc⟩

namespace Blueprint

variable {b : Blueprint} {first : List Demand} {q : Demand} {part : Part} {id t : String} {place : Place}

theorem declares_fragmentOf (inside : List Fragment) :
    (b.fragmentOf inside q).declares part id = true ↔ q.id = id ∧ q.part = part := by
  have hkind : (b.fragmentOf inside q).kind ∈ part.kinds ↔ q.part = part := by
    unfold fragmentOf
    cases hq : q.part with
    | construction =>
      cases b.kindOf q.id <;> cases part <;> simp [Part.kinds, NodeKind.instanceFragment]
    | _ => cases part <;> simp [Part.kinds]
  rw [Fragment.declares, decide_eq_true_eq, hkind, fragmentOf_node, Option.some.injEq, and_comm]

section Demands

theorem mem_contentDemands_customTool :
    ⟨t, .topLevel, .customTool⟩ ∈ b.contentDemands id place ↔
      (b.kindOf id).hasAgent = true ∧ .custom t ∈ b.attached id := by
  have htools : ⟨t, .topLevel, .customTool⟩ ∈ b.toolDemands id ↔ .custom t ∈ b.attached id := by
    rw [toolDemands, List.mem_filterMap]
    constructor
    · rintro ⟨a, ha, hq⟩
      cases a with
      | custom t' =>
        cases hq
        exact ha
      | _ => cases hq
    · intro ha
      exact ⟨_, ha, rfl⟩
  unfold contentDemands
  cases hk : b.kindOf id with
  | agent settings => simp [htools, NodeKind.hasAgent, NodeKind.agent?]
  | orchestrator settings => simp [htools, NodeKind.hasAgent, NodeKind.agent?]
  | _ => simp [NodeKind.hasAgent, NodeKind.agent?]

theorem customTool_not_mem_agenda {root : Option String} :
    ⟨t, place, .customTool⟩ ∉ b.agenda root := by
  rw [mem_agenda]
  rintro (⟨_, -, h⟩ | ⟨x, -, h⟩ | ⟨_, -, h⟩)
  · cases h
  · rw [idleDemand] at h
    split_ifs at h
    · cases h
    · cases h
  · cases h

theorem demanded_customTool {root : Option String} :
    b.Demanded (b.agenda root) ⟨t, .topLevel, .customTool⟩ ↔
      ∃ x, (b.kindOf x).hasAgent = true ∧ b.IsOwned (b.agenda root) x ∧ .custom t ∈ b.attached x := by
  constructor
  · intro h
    cases h with
    | first hq => exact absurd hq customTool_not_mem_agenda
    | @step p _ hp hq =>
      unfold demandsOf at hq
      split at hq
      · obtain ⟨hk, ha⟩ := mem_contentDemands_customTool.mp hq
        exact ⟨p.id, hk, ⟨p, hp, rfl, Or.inl ‹_›⟩, ha⟩
      · rcases List.mem_append.mp hq with hq | hq
        · obtain ⟨hk, ha⟩ := mem_contentDemands_customTool.mp hq
          exact ⟨p.id, hk, ⟨p, hp, rfl, Or.inr ‹_›⟩, ha⟩
        · split_ifs at hq
          · simp [clientDemands] at hq
          · cases hq
      all_goals cases hq
  · rintro ⟨x, hk, howned, ha⟩
    obtain ⟨place, hplace⟩ := howned.demanded_content
    exact hplace _ (mem_contentDemands_customTool.mpr ⟨hk, ha⟩)

end Demands

section Emitted

variable {root : Option String} {p : Program} {d : Draft} {l : Ledger} (hacc : b.Accounts root p d l)

include hacc

theorem Accounts.placesOf_emissions (part : Part) (id : String) :
    d.placesOf part id = (l.emissions.filter (·.2.declares part id)).map Prod.fst := by
  rw [Draft.placesOf, ← hacc.emitted, List.filter_filter]
  congr 1
  apply List.filter_congr
  intro e _
  cases hn : e.2.node <;> simp [Fragment.declares, hn]

theorem Accounts.placesOf_eq (part : Part) (id : String) :
    d.placesOf part id = (l.keys.filter fun q => q.id = id ∧ q.part = part).map Demand.place := by
  have hkey : ∀ e ∈ l, e.2.declares part id = decide (e.1.id = id ∧ e.1.part = part) := by
    rintro ⟨q, f⟩ he
    obtain ⟨inside, rfl⟩ := hacc.sound.exists_inside he
    rw [Bool.eq_iff_iff, declares_fragmentOf, decide_eq_true_eq]
  rw [hacc.placesOf_emissions, Ledger.emissions, Ledger.keys, List.filter_map, List.filter_map, List.map_map,
    List.map_map]
  exact congrArg _ (List.filter_congr hkey)

theorem Accounts.mem_placesOf : place ∈ d.placesOf part id ↔ ⟨id, place, part⟩ ∈ l.keys := by
  rw [hacc.placesOf_eq, List.mem_map]
  constructor
  · rintro ⟨q, hq, rfl⟩
    obtain ⟨hkey, hid⟩ := List.mem_filter.mp hq
    obtain ⟨rfl, rfl⟩ := of_decide_eq_true hid
    exact hkey
  · intro hq
    exact ⟨_, List.mem_filter.mpr ⟨hq, by simp⟩, rfl⟩

theorem Accounts.placesOf_nodup (part : Part) (id : String) : (d.placesOf part id).Nodup := by
  rw [hacc.placesOf_eq]
  apply (hacc.sound.keys_nodup.filter _).map_on
  intro q hq q' hq' hplace
  obtain ⟨hid, hpart⟩ := of_decide_eq_true (List.mem_filter.mp hq).2
  obtain ⟨hid', hpart'⟩ := of_decide_eq_true (List.mem_filter.mp hq').2
  cases q
  cases q'
  simp_all

theorem Accounts.placesOf_topLevel (hplace : ∀ place, ⟨id, place, part⟩ ∈ l.keys → place = .topLevel) :
    d.placesOf part id = if ⟨id, .topLevel, part⟩ ∈ l.keys then [.topLevel] else [] := by
  have hall : ∀ place ∈ d.placesOf part id, place = .topLevel := by
    intro place hmem
    exact hplace place (hacc.mem_placesOf.mp hmem)
  split_ifs with hkey
  · have hmem : Place.topLevel ∈ d.placesOf part id := hacc.mem_placesOf.mpr hkey
    have hreplicate := List.eq_replicate_iff.mpr ⟨rfl, hall⟩
    rw [hreplicate] at hmem ⊢
    have hlen := hreplicate ▸ hacc.placesOf_nodup part id
    rw [List.nodup_replicate] at hlen
    have hpos := List.length_pos_of_mem hmem
    rw [List.length_replicate] at hpos
    rw [show (d.placesOf part id).length = 1 by omega]
    rfl
  · apply List.eq_nil_iff_forall_not_mem.mpr
    intro place hmem
    exact hkey (hall place hmem ▸ hacc.mem_placesOf.mp hmem)

theorem Accounts.countP_declares (part : Part) (id : String) :
    p.fragments.countP (·.declares part id) = (d.placesOf part id).count .topLevel := by
  have hnone : ∀ f : Fragment, f.node = none → f.declares part id = false := by
    intro f hf
    simp [Fragment.declares, hf]
  have hworkflow (place : Place) :
      (if place = b.entryPlace root then b.workflow root else []).countP (·.declares part id) = 0 := by
    rw [List.countP_eq_zero]
    intro f hf
    have hmem : f ∈ b.workflow root := by
      split_ifs at hf
      · exact hf
      · cases hf
    cases root with
    | some r => cases hmem
    | none => simp [List.mem_singleton.mp hmem, hnone]
  have hledger : (l.fragmentsAt .topLevel).countP (·.declares part id) =
      (l.emissions.filter (·.2.declares part id)).countP (·.1 = .topLevel) := by
    rw [Ledger.fragmentsAt, Ledger.emissions, List.countP_map, List.countP_filter, List.filter_map,
      List.countP_map, List.countP_filter]
    apply List.countP_congr
    intro e _
    simp [and_comm]
  obtain ⟨prompt, hfr⟩ := hacc.fragments
  rw [hfr, fragmentsIn, List.countP_append, List.countP_append, hledger, hworkflow, hacc.placesOf_emissions,
    List.count, List.countP_map, List.countP_singleton, hnone _ rfl, Nat.add_zero]
  apply List.countP_congr
  intro e _
  simp

theorem Accounts.declares_of_emitted {e : Place × Fragment} (he : e ∈ d.emitted) :
    (∃ part id, e.2.declares part id = true) ∨ e.2.kind = .composition ∧ e.2.node = none := by
  cases hn : e.2.node with
  | none => exact Or.inr ⟨hacc.unowned e he hn, rfl⟩
  | some id =>
    have hmem : e ∈ l.emissions := by
      rw [← hacc.emitted, List.mem_filter, List.mem_reverse]
      exact ⟨he, by rw [hn]; rfl⟩
    obtain ⟨⟨q, f⟩, hq, rfl⟩ := List.mem_map.mp hmem
    obtain ⟨inside, rfl⟩ := hacc.sound.exists_inside hq
    exact Or.inl ⟨q.part, q.id, (declares_fragmentOf inside).mpr ⟨rfl, rfl⟩⟩

end Emitted

section Graph

variable {g : Graph} {root : Option String} {p : Program} {d : Draft} {l : Ledger}
  (hb : (g.index.blueprint root).Coherent)
  (ha : (g.index.blueprint root).Agenda ((g.index.blueprint root).runServers root)
    ((g.index.blueprint root).agenda root))
  (hacc : (g.index.blueprint root).Accounts root p d l)

include hb ha hacc

theorem client_mem_keys (s : String) : ⟨s, .topLevel, .client⟩ ∈ l.keys ↔
    g.attaches NodeKind.isServer NodeKind.isExecutable s = true := by
  rw [Graph.attaches_iff]
  constructor
  · intro hkey
    obtain ⟨x, hx⟩ := (((hacc.sound.demanded hkey).1.placed hb ha).server rfl).2
    obtain ⟨ht, hs⟩ := List.mem_filter.mp hx
    exact ⟨(Option.any_eq_true _ _).mp hs, x, ht, (Index.kinds_of_mem_tools ht).2⟩
  · rintro ⟨hs, x, ht, -⟩
    apply hacc.complete
    apply demanded_client_of_attached hb.acyclic root (x := x)
    exact List.mem_filter.mpr ⟨ht, (Option.any_eq_true _ _).mpr hs⟩

omit ha in
theorem customTool_mem_keys (t : String) : ⟨t, .topLevel, .customTool⟩ ∈ l.keys ↔
    g.attaches NodeKind.isCustomTool NodeKind.hasAgent t = true := by
  rw [Graph.attaches_iff]
  constructor
  · intro hkey
    obtain ⟨x, hk, -, hx⟩ := demanded_customTool.mp (hacc.sound.demanded hkey).1
    obtain ⟨n, s, hn, hs⟩ := hb.mem_attached_custom hx
    obtain ⟨t', ht, hat⟩ := hb.mem_attached hx
    obtain ⟨rfl, -⟩ := attachmentOf_custom hat
    obtain ⟨m, hm, -⟩ := (Index.kinds_of_mem_tools ht).2
    refine ⟨⟨n, hn, by rw [hs]; rfl⟩, x, ht, m, hm, ?_⟩
    rwa [kindOf_eq (b := g.index.blueprint root) hm] at hk
  · rintro ⟨⟨n, hn, hs⟩, x, ht, m, hm, hk⟩
    have howned := isOwned_of_executable hb.acyclic root
      (Index.mem_executables_of_node? hm (m.kind.isExecutable_of_agent? hk))
    have hkind : ((g.index.blueprint root).kindOf x).hasAgent = true := by
      rwa [kindOf_eq (b := g.index.blueprint root) hm]
    apply hacc.complete
    apply demanded_customTool.mpr
    refine ⟨x, hkind, howned, (hb.mem_attached_iff (hacc.hasTools howned hkind)).mpr ⟨t, ht, ?_⟩⟩
    rw [attachmentOf, kindOf_eq (b := g.index.blueprint root) hn]
    cases hkn : n.kind <;> simp_all [NodeKind.isCustomTool]

theorem placesOf_client (s : String) : d.placesOf .client s =
    if g.attaches NodeKind.isServer NodeKind.isExecutable s then [.topLevel] else [] := by
  rw [hacc.placesOf_topLevel]
  · simp only [client_mem_keys hb ha hacc]
  · intro place hkey
    exact (((hacc.sound.demanded hkey).1.placed hb ha).server rfl).1

theorem placesOf_customTool (t : String) : d.placesOf .customTool t =
    if g.attaches NodeKind.isCustomTool NodeKind.hasAgent t then [.topLevel] else [] := by
  rw [hacc.placesOf_topLevel]
  · simp only [customTool_mem_keys hb hacc]
  · intro place hkey
    exact (((hacc.sound.demanded hkey).1.placed hb ha).custom rfl).1

end Graph

end Blueprint

namespace Compilation

variable {g : Graph} {options : Options}

/-- The clients and custom tools of a generated program are those that are attached to nodes that need them, each
declared once and at the top level, and no part of a node is declared twice at one place. -/
theorem compile_declares_once (h : (Compilation.mk g options .standard).compile.isSuccess = true) :
    ∃ p, (Compilation.mk g options .standard).program? = some p ∧
      (Compilation.mk g options .standard).compile.sourceText = p.text ∧
      let d := (Compilation.mk g options .standard).generate.2
      (∀ s, d.placesOf .client s =
        if g.attaches NodeKind.isServer NodeKind.isExecutable s then [.topLevel] else []) ∧
      (∀ t, d.placesOf .customTool t =
        if g.attaches NodeKind.isCustomTool NodeKind.hasAgent t then [.topLevel] else []) ∧
      (∀ part id, (d.placesOf part id).Nodup) ∧
      (∀ part id, p.fragments.countP (·.declares part id) = (d.placesOf part id).count .topLevel) ∧
      ∀ e ∈ d.emitted, (∃ part id, e.2.declares part id = true) ∨ e.2.kind = .composition ∧ e.2.node = none := by
  obtain ⟨p, root, l, hp, htext, -, hb, ha, hacc⟩ := exists_accounts h
  refine ⟨p, hp, htext, ?_, ?_, ?_, ?_, ?_⟩
  · exact Blueprint.placesOf_client hb ha hacc
  · exact Blueprint.placesOf_customTool hb ha hacc
  · exact hacc.placesOf_nodup
  · exact hacc.countP_declares
  · intro e he
    exact hacc.declares_of_emitted he

/-- A server that is attached to a swarm is declared once, and a custom tool that is attached to nothing is not. -/
theorem files_of_team_declared_once :
    let g := Graph.writerTeam [⟨"s", "Files", .server { ServerSettings.default with command := some "files" }⟩,
      ⟨"c", "Count", .customTool .default⟩] "s" "t"
    (Compilation.mk g .default .standard).compile.isSuccess = true ∧
      ∃ p, (Compilation.mk g .default .standard).program? = some p ∧
        (Compilation.mk g .default .standard).generate.2.placesOf .client "s" = [.topLevel] ∧
        (Compilation.mk g .default .standard).generate.2.placesOf .customTool "c" = [] ∧
        p.fragments.countP (·.declares .client "s") = 1 := by
  intro g
  have success : (Compilation.mk g .default .standard).compile.isSuccess = true := by decide +kernel
  have attached : g.attaches NodeKind.isServer NodeKind.isExecutable "s" = true := by decide
  have loose : g.attaches NodeKind.isCustomTool NodeKind.hasAgent "c" = false := by decide
  obtain ⟨p, hp, -, hclients, htools, -, hcount, -⟩ := compile_declares_once success
  have hs := hclients "s"
  rw [if_pos attached] at hs
  refine ⟨success, p, hp, hs, ?_, ?_⟩
  · rw [htools, loose]
    rfl
  · rw [hcount, hs]
    rfl

end Compilation

end AgentWorkflow
