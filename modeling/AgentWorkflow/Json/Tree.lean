import AgentWorkflow.Json.Fault

/-!
Located values, as far as a text is JSON.

A `Tree` records where each value stands. Where the text stops being JSON the tree breaks off. What is
wrong there depends on how closely the place is read: a reader that passes over a value does not mind
what only matters to one that keeps it. So the tree records both, and `check` and `skip` are the two
readers that want no particular shape.
-/

namespace AgentWorkflow.Json

/-- A place where the text stops being JSON, as different readers meet it. -/
structure Break where
  /-- The fault for a reader that keeps the value. -/
  kept : Fault
  /-- The fault for a reader that passes over it. -/
  skipped : Fault
  /-- The fault for a reader that wants no further part here. -/
  surplus : Fault
  /-- The fault for a reader that wants a name here. -/
  named : Fault
  deriving DecidableEq, Repr

/-- A key of an object. -/
structure Key where
  name : String
  /-- What is wrong with the key's text, for a reader that keeps it. -/
  defect : Option Fault
  /-- The place after the key. -/
  stop : Position
  /-- The place that is left when the object is given up after the key. -/
  dropped : Position
  /-- The fault for a reader that wants no further entry. -/
  surplus : Fault
  deriving DecidableEq, Repr

/-- The extent of a value in the text. -/
structure Span where
  start : Position
  stop : Position
  deriving DecidableEq, Repr

/-- A value with its place, as far as the text is JSON. A defect is a fault that only concerns readers
that keep the value; each item comes with the fault for a reader that wants no further item. -/
inductive Tree where
  | scalar (span : Span) (value : Scalar) (defect : Option Fault)
  | array (span : Span) (defect : Option Fault) (items : List (Fault × Tree)) (tail : Option Break)
  | object (span : Span) (defect : Option Fault) (entries : List (Key × Tree))
      (tail : Option Break)
  | broken (b : Break)

/-- The outcome of a fault that may be absent. -/
def refuse : Option Fault → Except Fault Unit
  | some fault => .error fault
  | none => .ok ()

namespace Tree

mutual

/-- The value, if it can be kept whole; otherwise the first fault of the text. -/
def check : Tree → Except Fault Json
  | .scalar _ value defect => do
    refuse defect
    return .scalar value
  | .array _ defect items tail => do
    refuse defect
    let items ← checkItems items
    refuse (tail.map Break.kept)
    return .array items
  | .object _ defect entries tail => do
    refuse defect
    let entries ← checkEntries entries
    refuse (tail.map Break.kept)
    return .object entries
  | .broken b => .error b.kept

def checkItems : List (Fault × Tree) → Except Fault (List Json)
  | [] => return []
  | (_, item) :: rest => return (← check item) :: (← checkItems rest)

def checkEntries : List (Key × Tree) → Except Fault (List (String × Json))
  | [] => return []
  | (key, value) :: rest => do
    refuse key.defect
    return (key.name, ← check value) :: (← checkEntries rest)

end

mutual

def skip : Tree → Except Fault Unit
  | .scalar .. => .ok ()
  | .array _ _ items tail => do
    skipItems items
    refuse (tail.map Break.skipped)
  | .object _ _ entries tail => do
    skipEntries entries
    refuse (tail.map Break.skipped)
  | .broken b => .error b.skipped

def skipItems : List (Fault × Tree) → Except Fault Unit
  | [] => .ok ()
  | (_, item) :: rest => do
    skip item
    skipItems rest

def skipEntries : List (Key × Tree) → Except Fault Unit
  | [] => .ok ()
  | (_, value) :: rest => do
    skip value
    skipEntries rest

end

/-- The place of a value that no text was read for. -/
def nowhere : Position := ⟨0, 0⟩

/-- A fault that no text was read for. -/
def placeless (cause : Cause) : Fault := ⟨cause, nowhere⟩

mutual

/-- A value held in memory as a tree without places. -/
def ofJson : Json → Tree
  | .scalar value => .scalar ⟨nowhere, nowhere⟩ value none
  | .array items => .array ⟨nowhere, nowhere⟩ none (ofItems items) none
  | .object entries => .object ⟨nowhere, nowhere⟩ none (ofEntries entries) none

def ofItems : List Json → List (Fault × Tree)
  | [] => []
  | item :: rest => (placeless .surplusText, ofJson item) :: ofItems rest

def ofEntries : List (String × Json) → List (Key × Tree)
  | [] => []
  | (name, value) :: rest =>
    (⟨name, none, nowhere, nowhere, placeless .expectedValue⟩, ofJson value) :: ofEntries rest

end

end Tree

end AgentWorkflow.Json
