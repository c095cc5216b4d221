import AgentWorkflow.Json.Record

/-!
Documents of the canvas editor.

A canvas holds nodes with free-form data and edges between their handles. A document is a canvas, or a
project that embeds one; a project is recognised by its embedded canvas.
-/

namespace AgentWorkflow

open Json

/-- A node of a canvas: its id, its type, and whatever the editor stores with it. -/
structure CanvasNode where
  id : String
  type : Option String
  data : Json

structure CanvasEdge where
  id : Option String
  source : String
  sourceHandle : Option String
  target : String
  targetHandle : Option String
  deriving DecidableEq, Repr

structure Canvas where
  nodes : List CanvasNode
  edges : List CanvasEdge

/-- A document: a project with its canvas and its name, or a canvas alone. -/
inductive Document where
  | project (canvas : Canvas) (name : Option String)
  | bare (canvas : Canvas)

def CanvasNode.record : Record CanvasNode where
  name := "CanvasNode"
  initial := ⟨"", none, .null⟩
  fields := [
    (Field.of "id" [] .text CanvasNode.id fun v r => { r with id := v }).require,
    .of "type" [] Codec.text.optional CanvasNode.type fun v r => { r with type := v },
    .of "data" [] .any CanvasNode.data fun v r => { r with data := v }]
  inner := none

def CanvasEdge.record : Record CanvasEdge where
  name := "CanvasEdge"
  initial := ⟨none, "", none, "", none⟩
  fields := [
    .of "id" [] Codec.text.optional CanvasEdge.id fun v r => { r with id := v },
    (Field.of "source" [] .text CanvasEdge.source fun v r => { r with source := v }).require,
    .of "source_handle" ["sourceHandle"] Codec.text.optional CanvasEdge.sourceHandle fun v r =>
      { r with sourceHandle := v },
    (Field.of "target" [] .text CanvasEdge.target fun v r => { r with target := v }).require,
    .of "target_handle" ["targetHandle"] Codec.text.optional CanvasEdge.targetHandle fun v r =>
      { r with targetHandle := v }]
  inner := none

/-- The form of canvases; both lists may be absent. -/
def Canvas.record : Record Canvas where
  name := "Canvas"
  initial := ⟨[], []⟩
  fields := [
    .of "nodes" [] CanvasNode.record.codec.list Canvas.nodes fun v r => { r with nodes := v },
    .of "edges" [] CanvasEdge.record.codec.list Canvas.edges fun v r => { r with edges := v }]
  inner := none

/-- The form of projects; the canvas must not be absent. -/
def Canvas.project : Record (Canvas × Option String) where
  name := "Project"
  initial := (⟨[], []⟩, none)
  fields := [
    (Field.of "graph" ["flow"] Canvas.record.codec Prod.fst fun v r => (v, r.2)).require,
    .of "name" [] Codec.text.optional Prod.snd fun v r => (r.1, v)]
  inner := none

namespace Document

def canvas : Document → Canvas
  | .project canvas _ => canvas
  | .bare canvas => canvas

/-- The document that a value is: a project if it has the form of one, else a canvas. -/
def ofJson? (value : Json) : Option Document :=
  let tree := Tree.ofJson value
  match Canvas.project.codec.decode .aside tree with
  | .ok (canvas, name) => some (.project canvas name)
  | .error _ =>
    match Canvas.record.codec.decode .aside tree with
    | .ok canvas => some (.bare canvas)
    | .error _ => none

end Document

end AgentWorkflow
