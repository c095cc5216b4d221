import AgentWorkflow.Canvas.Graph
import AgentWorkflow.Proofs.Json.Printing
import AgentWorkflow.Proofs.Json.Records

/-!
Which document a text is. A text that is an object is a project when its entry `graph` or `flow` is read as a canvas,
and otherwise it may still be a bare canvas, whatever that entry holds.
-/

namespace AgentWorkflow

open Json

section Codecs

variable {α : Type} {c : Codec α}

theorem Json.Codec.decodeItems_eq_ok_iff {origin : Origin} {items : List (Fault × Tree)} {values : List α} :
    c.decodeItems origin items = .ok values ↔
      List.Forall₂ (fun item value => c.decode origin item.2 = .ok value) items values := by
  induction items generalizing values with
  | nil => cases values <;> simp [Codec.decodeItems, pure, Except.pure]
  | cons item items ih => cases values <;> simp [Codec.decodeItems, bind_eq_ok_iff, map_eq_ok_iff, ih]

theorem Json.Tree.ofItems_eq_map (items : List Json) :
    Tree.ofItems items = items.map fun item => (Tree.placeless .surplusText, Tree.ofJson item) := by
  induction items with
  | nil => rfl
  | cons item items ih => rw [Tree.ofItems, ih, List.map_cons]

theorem Json.Codec.list_decode_eq_ok_iff {origin : Origin} {value : Json} {values : List α} :
    c.list.decode origin (.ofJson value) = .ok values ↔ ∃ items, value = .array items ∧
      List.Forall₂ (fun item a => c.decode origin (.ofJson item) = .ok a) items values := by
  cases value with
  | scalar s => simp [Codec.list, Tree.ofJson]
  | object entries => simp [Codec.list, Tree.ofJson]
  | array items =>
    simp [Codec.list, Tree.ofJson, bind_eq_ok_iff, map_eq_ok_iff, refuse_eq_ok_iff, Codec.decodeItems_eq_ok_iff,
      Tree.ofItems_eq_map]

theorem Json.Codec.optional_text_decode_eq_ok_iff {origin : Origin} {value : Json} {o : Option String} :
    Codec.text.optional.decode origin (.ofJson value) = .ok o ↔ value = Json.text o := by
  rcases value with (_ | b | n | s) | items | entries <;> cases o <;>
    simp [Codec.optional, Codec.text, ofScalar, Tree.ofJson, Json.text, Json.null, Json.string]

end Codecs

/-- The items of a list in a document, if there is one; an absent list has no items. -/
def Json.Codec.ReadsList {α : Type} (c : Json.Codec α) (found : List Json) (values : List α) : Prop :=
  found = [] ∧ values = [] ∨
    ∃ items, found = [.array items] ∧ List.Forall₂ (fun item a => c.decode .aside (.ofJson item) = .ok a) items values

namespace Canvas

/-- A value is a canvas: its nodes and edges are the items of its two lists, each read as a node or an edge, in order.
The lists are found by their keys, each at most once, or by their places. -/
inductive IsRead (c : Canvas) : Json → Prop
  | object {entries : List (String × Json)} : CanvasNode.record.codec.ReadsList (keyed ["nodes"] entries) c.nodes →
      CanvasEdge.record.codec.ReadsList (keyed ["edges"] entries) c.edges → IsRead c (.object entries)
  | array {parts : List Json} : parts.length ≤ 2 → CanvasNode.record.codec.ReadsList (parts.take 1) c.nodes →
      CanvasEdge.record.codec.ReadsList (parts.drop 1) c.edges → IsRead c (.array parts)

theorem readsField_list_iff {α : Type} {c : Codec α} {found : List Json} {values : List α} :
    c.list.ReadsField (some []) found values ↔ c.ReadsList found values := by
  constructor
  · rintro (⟨⟨⟩⟩ | hread)
    · exact .inl ⟨rfl, rfl⟩
    · obtain ⟨items, rfl, hitems⟩ := Codec.list_decode_eq_ok_iff.1 hread
      exact .inr ⟨items, rfl, hitems⟩
  · rintro (⟨rfl, rfl⟩ | ⟨items, rfl, hitems⟩)
    · exact .absent rfl
    · exact .present (Codec.list_decode_eq_ok_iff.2 ⟨items, rfl, hitems⟩)

theorem readsList_nil {α : Type} {c : Codec α} {values : List α} : c.ReadsList [] values ↔ values = [] := by
  simp [Codec.ReadsList]

theorem readsList_singleton {α : Type} {c : Codec α} {v : Json} {values : List α} :
    c.ReadsList [v] values ↔ c.list.decode .aside (.ofJson v) = .ok values := by
  simp [Codec.ReadsList, Codec.list_decode_eq_ok_iff]

theorem isRead_array_iff {c : Canvas} {parts : List Json} : c.IsRead (.array parts) ↔ parts.length ≤ 2 ∧
    CanvasNode.record.codec.ReadsList (parts.take 1) c.nodes ∧
      CanvasEdge.record.codec.ReadsList (parts.drop 1) c.edges := by
  constructor
  · rintro (_ | ⟨hlength, hnodes, hedges⟩)
    exact ⟨hlength, hnodes, hedges⟩
  · rintro ⟨hlength, hnodes, hedges⟩
    exact .array hlength hnodes hedges

theorem decode_array_iff {c : Canvas} {parts : List Json} :
    record.codec.decode .aside (.ofJson (.array parts)) = .ok c ↔ c.IsRead (.array parts) := by
  obtain ⟨nodes, edges⟩ := c
  rw [isRead_array_iff]
  -- A canvas has two parts: a list of three items or more is no canvas.
  rcases parts with _ | ⟨nodes, _ | ⟨edges, _ | ⟨surplus, rest⟩⟩⟩ <;>
    simp [Record.codec, Tree.ofJson, Tree.ofItems, record, Record.decodeItems, Field.of, bind_eq_ok_iff, map_eq_ok_iff,
      refuse_eq_ok_iff, readsList_nil, readsList_singleton]

def nodesField : Json.Field Canvas :=
  .of "nodes" [] CanvasNode.record.codec.list Canvas.nodes fun v r => { r with nodes := v }

def edgesField : Json.Field Canvas :=
  .of "edges" [] CanvasEdge.record.codec.list Canvas.edges fun v r => { r with edges := v }

theorem holds_nodes : record.Holds nodesField CanvasNode.record.codec.list Canvas.nodes := by
  refine .intro (fun v r => { r with nodes := v }) List.mem_cons_self (fun tree => rfl) (fun a value => rfl) ?_
  rintro g hg hne tree update hupdate value
  rcases List.mem_cons.1 hg with rfl | hg
  · exact absurd rfl hne
  · obtain rfl := List.mem_singleton.1 hg
    obtain ⟨a, -, rfl⟩ := map_eq_ok_iff.1 hupdate
    rfl

theorem holds_edges : record.Holds edgesField CanvasEdge.record.codec.list Canvas.edges := by
  refine .intro (fun v r => { r with edges := v }) (List.mem_cons_of_mem _ List.mem_cons_self) (fun tree => rfl)
    (fun a value => rfl) ?_
  rintro g hg hne tree update hupdate value
  rcases List.mem_cons.1 hg with rfl | hg
  · obtain ⟨a, -, rfl⟩ := map_eq_ok_iff.1 hupdate
    rfl
  · exact absurd (List.mem_singleton.1 hg) hne

theorem decode_iff {c : Canvas} {value : Json} :
    record.codec.decode .aside (.ofJson value) = .ok c ↔ c.IsRead value := by
  cases value with
  | scalar s =>
    refine ⟨fun h => ?_, nofun⟩
    contradiction
  | object entries =>
    have hext (v w : Canvas) (hnodes : v.nodes = w.nodes) (hedges : v.edges = w.edges) : v = w := by
      cases v
      cases w
      simp_all
    rw [Record.decode_object_iff_of_pair (f := nodesField) (g := edgesField) rfl (by decide) rfl holds_nodes holds_edges
      hext]
    constructor
    · rintro ⟨hnodes, hedges⟩
      exact .object (readsField_list_iff.1 hnodes) (readsField_list_iff.1 hedges)
    · rintro (⟨hnodes, hedges⟩)
      exact ⟨readsField_list_iff.2 hnodes, readsField_list_iff.2 hedges⟩
  | array parts => exact decode_array_iff

end Canvas

namespace Document

def graphField : Json.Field (Canvas × Option String) :=
  (Json.Field.of "graph" ["flow"] Canvas.record.codec Prod.fst fun v r => (v, r.2)).require

def nameField : Json.Field (Canvas × Option String) :=
  .of "name" [] Codec.text.optional Prod.snd fun v r => (r.1, v)

theorem holds_graph : Canvas.project.Holds graphField Canvas.record.codec Prod.fst := by
  refine .intro (fun v r => (v, r.2)) List.mem_cons_self (fun tree => rfl) (fun a value => rfl) ?_
  rintro g hg hne tree update hupdate value
  rcases List.mem_cons.1 hg with rfl | hg
  · exact absurd rfl hne
  · obtain rfl := List.mem_singleton.1 hg
    obtain ⟨a, -, rfl⟩ := map_eq_ok_iff.1 hupdate
    rfl

theorem holds_name : Canvas.project.Holds nameField Codec.text.optional Prod.snd := by
  refine .intro (fun v r => (r.1, v)) (List.mem_cons_of_mem _ List.mem_cons_self) (fun tree => rfl)
    (fun a value => rfl) ?_
  rintro g hg hne tree update hupdate value
  rcases List.mem_cons.1 hg with rfl | hg
  · obtain ⟨a, -, rfl⟩ := map_eq_ok_iff.1 hupdate
    rfl
  · exact absurd (List.mem_singleton.1 hg) hne

theorem readsField_graph_iff {found : List Json} {c : Canvas} :
    Canvas.record.codec.ReadsField none found c ↔ ∃ v, found = [v] ∧ c.IsRead v := by
  constructor
  · rintro (⟨⟨⟩⟩ | hread)
    exact ⟨_, rfl, Canvas.decode_iff.1 hread⟩
  · rintro ⟨v, rfl, hread⟩
    exact .present (Canvas.decode_iff.2 hread)

theorem readsField_name_iff {found : List Json} {name : Option String} :
    Codec.text.optional.ReadsField (some none) found name ↔ found = [] ∧ name = none ∨ found = [Json.text name] := by
  constructor
  · rintro (hdefault | hread)
    · exact .inl ⟨rfl, (Option.some.inj hdefault).symm⟩
    · exact .inr (congrArg (fun v => [v]) (Codec.optional_text_decode_eq_ok_iff.1 hread))
  · rintro (⟨rfl, rfl⟩ | rfl)
    · exact .absent rfl
    · exact .present (Codec.optional_text_decode_eq_ok_iff.2 rfl)

theorem project_decode_iff {c : Canvas} {name : Option String} {entries : List (String × Json)} :
    Canvas.project.codec.decode .aside (.ofJson (.object entries)) = .ok (c, name) ↔
      (∃ v, keyed ["graph", "flow"] entries = [v] ∧ c.IsRead v) ∧
        (keyed ["name"] entries = [] ∧ name = none ∨ keyed ["name"] entries = [Json.text name]) := by
  rw [Record.decode_object_iff_of_pair (f := graphField) (g := nameField) rfl (by decide) rfl holds_graph holds_name
    fun v w => Prod.ext]
  exact and_congr readsField_graph_iff readsField_name_iff

theorem ofText_eq_of_value {text : String} {value : Json} (h : Reading.value text = .ok value) :
    Document.ofText text = (Document.ofJson? value).elim (.error .noDocument) .ok := by
  rw [Document.ofText, h]
  cases hdocument : Document.ofJson? value <;> simp [hdocument]

/-- Which document a text is whose value is an object. It is a project exactly when one entry is keyed `graph` or
`flow`, that entry is read as a canvas item by item, and its name, if there is one, is a text or null. Otherwise the
whole object may still be read as a bare canvas, from entries `nodes` and `edges` of its own. -/
theorem ofText_object {text : String} {entries : List (String × Json)}
    (htext : Reading.value text = .ok (.object entries)) :
    (∀ c name, Document.ofText text = .ok (.project c name) ↔
      (∃ v, keyed ["graph", "flow"] entries = [v] ∧ c.IsRead v) ∧
        (keyed ["name"] entries = [] ∧ name = none ∨ keyed ["name"] entries = [Json.text name])) ∧
    ∀ c, Document.ofText text = .ok (.bare c) ↔
      (∀ c' name, Document.ofText text ≠ .ok (.project c' name)) ∧ c.IsRead (.object entries) := by
  have hproject (c : Canvas) (name : Option String) : Document.ofText text = .ok (.project c name) ↔
      Canvas.project.codec.decode .aside (.ofJson (.object entries)) = .ok (c, name) := by
    rw [ofText_eq_of_value htext, ofJson?]
    cases hdecode : Canvas.project.codec.decode .aside (.ofJson (.object entries)) with
    | ok pair => simp [Prod.ext_iff]
    | error fault => cases Canvas.record.codec.decode .aside (.ofJson (.object entries)) <;> simp
  refine ⟨fun c name => (hproject c name).trans project_decode_iff, fun c => ?_⟩
  simp only [ne_eq, hproject, ← Canvas.decode_iff]
  rw [ofText_eq_of_value htext, ofJson?]
  cases hdecode : Canvas.project.codec.decode .aside (.ofJson (.object entries)) with
  | ok pair =>
    obtain ⟨c', name⟩ := pair
    simp
  | error fault => cases Canvas.record.codec.decode .aside (.ofJson (.object entries)) <;> simp

/-- A project with an input, and a node of which only the type is given. -/
def weather (sky : List Json) : Json :=
  .object [("name", .string "Weather"), ("flow", .object [("nodes", .array (
    .object [("id", .string "in"), ("type", .string "input")] :: sky))])]

theorem isText_weather {sky : List Json} (h : ∀ node ∈ sky, Fits 1 node) : IsText (weather sky).print (weather sky) := by
  have hinput : Fits 1 (.object [("id", .string "in"), ("type", .string "input")]) :=
    .object (List.forall_mem_cons.2 ⟨.string _, List.forall_mem_singleton.2 (.string _)⟩)
  have hnodes : Fits 2 (.array (.object [("id", .string "in"), ("type", .string "input")] :: sky)) :=
    .array (List.forall_mem_cons.2 ⟨hinput, h⟩)
  have hweather : Fits 4 (weather sky) :=
    .object (List.forall_mem_cons.2
      ⟨.string _, List.forall_mem_singleton.2 (.object (List.forall_mem_singleton.2 hnodes))⟩)
  exact hweather.isText_print (by decide)

theorem ofText_object_weather :
    Document.ofText (weather []).print = .ok (.project ⟨[⟨"in", some "input", .null⟩], []⟩ (some "Weather")) := by
  have hvalue : Reading.value (weather []).print = .ok (weather []) := (isText_weather (List.forall_mem_nil _)).value_eq
  refine ((ofText_object hvalue).1 _ _).2 ⟨⟨_, rfl, ?_⟩, .inr rfl⟩
  exact .object (.inr ⟨_, rfl, .cons rfl .nil⟩) (.inl ⟨rfl, rfl⟩)

/-- A project that has a node without an id is read as a canvas without nodes. -/
theorem ofText_weather_lost :
    Document.ofText (weather [.object [("type", .string "agent")]]).print = .ok (.bare ⟨[], []⟩) := by
  have hagent : ∀ node ∈ [Json.object [("type", .string "agent")]], Fits 1 node :=
    List.forall_mem_singleton.2 (.object (List.forall_mem_singleton.2 (.string _)))
  rw [ofText_eq_of_value (isText_weather hagent).value_eq]
  rfl

end Document

end AgentWorkflow
