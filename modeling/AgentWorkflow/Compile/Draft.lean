import AgentWorkflow.Compile.Diagnostics
import AgentWorkflow.Compile.Error
import AgentWorkflow.Entries
import AgentWorkflow.Program.Fragment

/-!
A program in the making.

A draft collects what the generation produces: fragments by place, features in use, messages. It also
keeps what was demanded, so that nothing is declared twice at one place. `Drafting` is a computation on
a draft that may fail; what it did before stays done.
-/

namespace AgentWorkflow

/-- The parts that a node can have in a program: the construction of its instance, the function that
wraps it, the client of a server, the function of a custom tool. -/
inductive Part where
  | construction
  | wrapper
  | client
  | customTool
  deriving DecidableEq, Repr

/-- The demand for a part of a node at a place. -/
structure Demand where
  id : String
  place : Place
  part : Part
  deriving DecidableEq, Repr

/-- A program in the making. -/
structure Draft where
  imports : Imports
  diagnostics : Diagnostics
  /-- The fragments at each place. Places are in the order in which they came into use. -/
  places : List (Place × List Fragment)
  /-- Every fragment that was emitted and its place, the latest first, also if it was taken away since. -/
  emitted : List (Place × Fragment)
  /-- What was demanded, the latest first. -/
  demands : List Demand
  /-- What expanders noted for their authors, the latest first. -/
  notes : List String

/-- Why an expansion ends early. An error can be handled, a crash cannot. -/
inductive Failure where
  | error (e : CompileError)
  | crash
  deriving DecidableEq, Repr

/-- A computation on a draft. -/
abbrev Drafting := ExceptT Failure (StateM Draft)

namespace Draft

def empty : Draft := ⟨.empty, .empty, [], [], [], []⟩

def fragments (d : Draft) (place : Place) : List Fragment :=
  (Entries.get? place d.places).getD []

def emit (d : Draft) (place : Place) (f : Fragment) : Draft :=
  { d with
    places := Entries.put place (d.fragments place ++ [f]) d.places
    emitted := (place, f) :: d.emitted }

def clear (d : Draft) (place : Place) : Draft :=
  { d with places := Entries.erase place d.places }

/-- The first place other than the top level that holds fragments. -/
def leftover? (d : Draft) : Option Place :=
  (d.places.find? fun (place, fragments) => place ≠ .topLevel && !fragments.isEmpty).map (·.1)

end Draft

namespace Drafting

def fail {α : Type} (e : CompileError) : Drafting α :=
  throw (.error e)

def failInternal {α : Type} (fault : InternalFault) : Drafting α :=
  fail (.internal fault)

def ofExcept {α : Type} : Except CompileError α → Drafting α
  | .ok a => pure a
  | .error e => fail e

def emit (place : Place) (f : Fragment) : Drafting Unit :=
  modify (·.emit place f)

def take (place : Place) : Drafting (List Fragment) :=
  modifyGet fun d => (d.fragments place, d.clear place)

def use (features : List Feature) : Drafting Unit :=
  modify fun d => { d with imports := d.imports.useAll features }

def warn (message : String) : Drafting Unit :=
  modify fun d => { d with diagnostics := d.diagnostics.warn message }

/-- Adds an error message, which does not stop the generation. -/
def report (message : String) : Drafting Unit :=
  modify fun d => { d with diagnostics := d.diagnostics.error message }

def note (text : String) : Drafting Unit :=
  modify fun d => { d with notes := text :: d.notes }

/-- Records a demand and tells whether it is the first of its kind. -/
def isFirst (demand : Demand) : Drafting Bool :=
  modifyGet fun d =>
    if demand ∈ d.demands then (false, d) else (true, { d with demands := demand :: d.demands })

/-- Makes a fragment at a place if its demand is the first of its kind. -/
def once (demand : Demand) (make : Drafting Fragment) : Drafting Unit := do
  if ← isFirst demand then emit demand.place (← make)

/-- Runs a computation so that an error becomes its result. A crash goes on. -/
def attempt {α : Type} (m : Drafting α) : Drafting (Except CompileError α) :=
  ExceptT.mk do
    match ← m.run with
    | .ok a => return .ok (.ok a)
    | .error (.error e) => return .ok (.error e)
    | .error .crash => return .error .crash

end Drafting

end AgentWorkflow
