import AgentWorkflow.Entries
import AgentWorkflow.Json.Reader

/-!
Reading values of a type from JSON and writing them as JSON.

A `Codec` pairs the two directions. A value may be read straight from a text, from a value held in
memory, or from a part that was set aside while the rest was read. Three faults differ in wording
between these: too many items, and a choice that is no name.
-/

namespace AgentWorkflow.Json

/-- Where a tree comes from: straight from a text, from a value in memory, or from a part of a value
that was set aside. -/
inductive Origin where
  | text
  | memory
  | aside
  deriving DecidableEq, Repr

abbrev Decoder (α : Type) := Origin → Tree → Except Fault α

/-- A way to read and to write values of a type. -/
structure Codec (α : Type) where
  decode : Decoder α
  encode : α → Json

/-- The fault of a tree that is not of the expected type. -/
def mismatch (expected : Expected) : Tree → Fault
  | .scalar span value defect => defect.getD ⟨.wrongType (.scalar value) expected, span.stop⟩
  | .array span _ _ _ => ⟨.wrongType .sequence expected, span.start⟩
  | .object span _ _ _ => ⟨.wrongType .map expected, span.start⟩
  | .broken b => b.kept

/-- Reads values without parts; a value that is not read is of another type. -/
def ofScalar {α : Type} (expected : Expected) (read : Scalar → Option α) : Decoder α := fun _ tree =>
  match tree with
  | .scalar _ value none =>
    match read value with
    | some a => .ok a
    | none => .error (mismatch expected tree)
  | _ => .error (mismatch expected tree)

namespace Codec

variable {α β : Type}

/-- Reads a value from the whole of a text. -/
def ofText (c : Codec α) (text : String) : Except Fault α := do
  let reading := Reading.ofText text
  let value ← c.decode .text reading.tree
  refuse reading.trailing
  return value

/-- Reads a value from a value in memory. -/
def ofMemory (c : Codec α) (value : Json) : Except Fault α :=
  c.decode .memory (.ofJson value)

/-- The codec of a type that is written as another. -/
def map (c : Codec α) (there : α → β) (back : β → α) : Codec β where
  decode origin tree := there <$> c.decode origin tree
  encode b := c.encode (back b)

def text : Codec String where
  decode := ofScalar .string fun
    | .string s => some s
    | _ => none
  encode := Json.string

def flag : Codec Bool where
  decode := ofScalar .boolean fun
    | .bool b => some b
    | _ => none
  encode := Json.bool

/-- Floating point numbers; integers are read as the nearest one. -/
def real : Codec Binary64 where
  decode := ofScalar .float fun
    | .number (.natural n) => some (.ofNat n)
    | .number (.negative n) => some (.ofNegNat n)
    | .number (.float x) => some x
    | _ => none
  encode := Json.float

/-- Natural numbers below `2 ^ 32`. -/
def word : Codec UInt32 where
  decode _ tree :=
    match tree with
    | .scalar span (.number (.natural n)) none =>
      if n < UInt32.size then .ok n.toUInt32
      else .error ⟨.wrongValue (.scalar (.number (.natural n))) .word32, span.stop⟩
    | .scalar span (.number (.negative n)) none =>
      .error ⟨.wrongValue (.scalar (.number (.negative n))) .word32, span.stop⟩
    | _ => .error (mismatch .word32 tree)
  encode n := Json.natural n.toNat

def optional (c : Codec α) : Codec (Option α) where
  decode origin tree :=
    match tree with
    | .scalar _ .null none => .ok none
    | _ => some <$> c.decode origin tree
  encode
    | some a => c.encode a
    | none => .null

def decodeItems (c : Codec α) (origin : Origin) : List (Fault × Tree) → Except Fault (List α)
  | [] => return []
  | (_, item) :: rest => return (← c.decode origin item) :: (← decodeItems c origin rest)

def list (c : Codec α) : Codec (List α) where
  decode origin tree :=
    match tree with
    | .array _ defect items tail => do
      refuse defect
      let values ← c.decodeItems origin items
      refuse (tail.map Break.kept)
      return values
    | _ => .error (mismatch .sequence tree)
  encode values := .array (values.map c.encode)

def decodeEntries (c : Codec α) (origin : Origin) :
    List (String × α) → List (Key × Tree) → Except Fault (List (String × α))
  | table, [] => return table
  | table, (key, value) :: rest => do
    refuse key.defect
    let value ← c.decode origin value
    decodeEntries c origin (Entries.put key.name value table) rest

/-- Tables: objects with any keys, in the order in which the keys are first met. -/
def table (c : Codec α) : Codec (List (String × α)) where
  decode origin tree :=
    match tree with
    | .object _ defect entries tail => do
      refuse defect
      let table ← c.decodeEntries origin [] entries
      refuse (tail.map Break.kept)
      return table
    | _ => .error (mismatch .map tree)
  encode entries := .object (entries.map fun (key, value) => (key, c.encode value))

/-- Any value, with its objects as ordered maps. -/
def any : Codec Json where
  decode _ tree := sorted <$> tree.check
  encode value := value

end Codec

/-- A choice between named values: every spelling that is understood, and the one that is written. -/
structure Choice (α : Type) where
  spellings : List (String × α)
  name : α → String

namespace Choice

variable {α : Type}

/-- The value of a spelling found at a place. -/
def pick (c : Choice α) (name : String) (place : Position) : Except Fault α :=
  match c.spellings.lookup name with
  | some a => .ok a
  | none => .error ⟨.unknownVariant name (c.spellings.map (·.1)), place⟩

/-- The only payload of a choice is null. -/
def payload : Tree → Except Fault Unit
  | .scalar _ .null none => .ok ()
  | tree => .error (mismatch .unit tree)

/-- Reads a choice written as an object whose only key is the name. -/
def decodeEntry (c : Choice α) (origin : Origin) (span : Span) :
    List (Key × Tree) → Option Break → Except Fault α
  | [], none =>
    if origin = .text then .error ⟨.expectedValue, span.stop⟩
    else .error ⟨.wrongValue .map .singleKey, span.stop⟩
  | [], some b => .error b.named
  | (key, value) :: rest, tail => do
    if origin ≠ .text ∧ ¬rest.isEmpty then throw ⟨.wrongValue .map .singleKey, span.stop⟩
    refuse key.defect
    let a ← c.pick key.name key.stop
    payload value
    refuse (rest.head?.map (·.1.surplus))
    refuse (tail.map Break.surplus)
    return a

/-- What a reader of a choice meets in a value that is neither a text nor an object. -/
def noName (origin : Origin) (tree : Tree) : Fault :=
  match origin, tree with
  | .text, .scalar span _ _ => ⟨.expectedValue, ⟨span.start.line, span.start.column + 1⟩⟩
  | .text, .array span _ _ _ => ⟨.expectedValue, ⟨span.start.line, span.start.column + 1⟩⟩
  | .text, .broken b => b.named
  | _, _ => mismatch .choice tree

def codec (c : Choice α) : Codec α where
  decode origin tree :=
    match tree with
    | .scalar span (.string s) defect => do
      refuse defect
      c.pick s span.stop
    | .object span defect entries tail => do
      refuse defect
      c.decodeEntry origin span entries tail
    | _ => .error (noName origin tree)
  encode a := Json.string (c.name a)

end Choice

end AgentWorkflow.Json
