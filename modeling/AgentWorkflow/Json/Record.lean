import AgentWorkflow.Json.Codec

/-!
Records: values with named fields.

A record is written as an object. It is read from an object, whose further keys are passed over, or
from the list of its fields in order. A record may also hold an inner record whose fields stand among
its own; it is then read from objects only, and its inner record from the entries that are not its own.
-/

namespace AgentWorkflow.Json

structure Field (ρ : Type) where
  name : String
  aliases : List String
  required : Bool
  decode : Decoder (ρ → ρ)
  encode : ρ → Json

/-- An inner record whose fields stand among those of the outer one. -/
structure Inner (ρ : Type) where
  decode : List (String × Json) → Except Fault (ρ → ρ)
  encode : ρ → List (String × Json)

structure Record (ρ : Type) where
  name : String
  /-- The record whose fields all have their defaults. -/
  initial : ρ
  fields : List (Field ρ)
  inner : Option (Inner ρ)

namespace Field

variable {ρ α : Type}

/-- A field that keeps its default when it is absent. -/
def of (name : String) (aliases : List String) (c : Codec α) (get : ρ → α) (set : α → ρ → ρ) :
    Field ρ where
  name := name
  aliases := aliases
  required := false
  decode origin tree := set <$> c.decode origin tree
  encode r := c.encode (get r)

/-- The same field, which must not be absent. -/
def require (f : Field ρ) : Field ρ :=
  { f with required := true }

def isNamed (f : Field ρ) (key : String) : Bool :=
  f.name == key || f.aliases.contains key

end Field

/-- A record while its entries are read: its fields so far, their names, and the entries left to the
inner record. -/
structure Partial (ρ : Type) where
  value : ρ
  seen : List String
  others : List (String × Json)

namespace Record

variable {ρ σ : Type}

def decodeEntries (r : Record ρ) (origin : Origin) :
    Partial ρ → List (Key × Tree) → Except Fault (Partial ρ)
  | p, [] => .ok p
  | p, (key, tree) :: rest => do
    refuse key.defect
    match r.fields.find? (·.isNamed key.name) with
    | some field =>
      if p.seen.contains field.name then throw ⟨.repeatedField field.name, key.dropped⟩
      let set ← field.decode origin tree
      r.decodeEntries origin { p with value := set p.value, seen := field.name :: p.seen } rest
    | none =>
      if r.inner.isSome then
        let value ← tree.check
        r.decodeEntries origin { p with others := p.others ++ [(key.name, value)] } rest
      else
        tree.skip
        r.decodeEntries origin p rest

/-- The first required field that was not met. -/
def missing? (r : Record ρ) (seen : List String) : Option String :=
  (r.fields.find? fun field => field.required && !seen.contains field.name).map (·.name)

def decodeObject (r : Record ρ) (origin : Origin) (stop : Position) (entries : List (Key × Tree))
    (tail : Option Break) : Except Fault ρ := do
  let p ← r.decodeEntries origin ⟨r.initial, [], []⟩ entries
  refuse (tail.map Break.kept)
  refuse ((r.missing? p.seen).map fun name => ⟨.missingField name, stop⟩)
  match r.inner with
  | some inner => return (← inner.decode p.others) p.value
  | none => return p.value

/-- The fault of a list with more items than there are fields. -/
def surplusFault (origin : Origin) (stop : Position) (count wanted : Nat) (surplus : Fault) : Fault :=
  match origin with
  | .text => surplus
  | .memory => ⟨.wrongLength count .fewerElements, stop⟩
  | .aside => ⟨.wrongLength count (.elements wanted), stop⟩

/-- Reads fields from the items of a list; the first number counts the items read before. -/
def decodeItems (r : Record ρ) (origin : Origin) (stop : Position) (tail : Option Break) :
    Nat → ρ → List (Field ρ) → List (Fault × Tree) → Except Fault ρ
  | _, value, [], [] => do
    refuse (tail.map Break.surplus)
    return value
  | done, _, [], (surplus, _) :: rest =>
    .error (surplusFault origin stop (done + rest.length + 1) r.fields.length surplus)
  | done, value, field :: fields, [] => do
    refuse (tail.map Break.kept)
    if field.required then throw ⟨.wrongLength done (.recordOf r.name r.fields.length), stop⟩
    r.decodeItems origin stop tail (done + 1) value fields []
  | done, value, field :: fields, (_, tree) :: rest => do
    let set ← field.decode origin tree
    r.decodeItems origin stop tail (done + 1) (set value) fields rest

def entries (r : Record ρ) (value : ρ) : List (String × Json) :=
  ((r.inner.map fun inner => inner.encode value).getD []) ++
    r.fields.map fun field => (field.name, field.encode value)

def codec (r : Record ρ) : Codec ρ where
  decode origin tree :=
    match tree with
    | .object span defect entries tail => do
      refuse defect
      r.decodeObject origin span.stop entries tail
    | .array span defect items tail =>
      if r.inner.isSome then .error (mismatch (.record r.name) tree)
      else do
        refuse defect
        r.decodeItems origin span.stop tail 0 r.initial r.fields items
    | _ => .error (mismatch (.record r.name) tree)
  encode value := .object (r.entries value)

/-- The record as a part of an outer one, among whose fields its own stand. -/
def inside (r : Record σ) (get : ρ → σ) (set : σ → ρ → ρ) : Inner ρ where
  decode entries := set <$> r.decodeObject .aside Tree.nowhere (Tree.ofEntries entries) none
  encode value := r.entries (get value)

end Record

/-- A case of a tagged union: the name of its tag, and how its content is read. -/
structure Case (α : Type) where
  name : String
  decode : Decoder α

/-- A tagged union: objects of a tag and a content, or lists of the two. -/
structure TaggedUnion (α : Type) where
  name : String
  tag : String
  content : String
  cases : List (Case α)
  encode : α → String × Json

namespace TaggedUnion

variable {α : Type}

def choice (u : TaggedUnion α) : Choice (Case α) where
  spellings := u.cases.map fun case => (case.name, case)
  name := Case.name

/-- The next entry that is the tag or the content, and the entries after it. -/
def next (u : TaggedUnion α) (tail : Option Break) :
    List (Key × Tree) → Except Fault (Option (Key × Tree × List (Key × Tree)))
  | [] => do
    refuse (tail.map Break.kept)
    return none
  | (key, tree) :: rest => do
    refuse key.defect
    if key.name = u.tag ∨ key.name = u.content then return some (key, tree, rest)
    else
      tree.skip
      u.next tail rest

/-- No further tag or content may follow. -/
def finish (u : TaggedUnion α) (tail : Option Break) (value : α) (rest : List (Key × Tree)) :
    Except Fault α := do
  match ← u.next tail rest with
  | none => return value
  | some (key, _, _) => throw ⟨.repeatedField key.name, key.dropped⟩

/-- Reads an object. A content that stands before its tag is set aside until the tag is known. -/
def decodeObject (u : TaggedUnion α) (origin : Origin) (stop : Position) (entries : List (Key × Tree))
    (tail : Option Break) : Except Fault α := do
  match ← u.next tail entries with
  | none => throw ⟨.missingField u.tag, stop⟩
  | some (key, tree, rest) =>
    if key.name = u.tag then
      let case ← u.choice.codec.decode origin tree
      match ← u.next tail rest with
      | none => throw ⟨.missingField u.content, stop⟩
      | some (key, tree, rest) =>
        if key.name = u.tag then throw ⟨.repeatedField u.tag, key.dropped⟩
        let value ← case.decode origin tree
        u.finish tail value rest
    else
      let content ← tree.check
      match ← u.next tail rest with
      | none => throw ⟨.missingField u.tag, stop⟩
      | some (key, tree, rest) =>
        if key.name = u.content then throw ⟨.repeatedField u.content, key.dropped⟩
        let case ← u.choice.codec.decode origin tree
        let value ← case.decode .aside (.ofJson content)
        u.finish tail value rest

/-- Reads a list of the tag and the content. -/
def decodeItems (u : TaggedUnion α) (origin : Origin) (stop : Position) (tail : Option Break) :
    List (Fault × Tree) → Except Fault α
  | [] => do
    refuse (tail.map Break.kept)
    throw ⟨.wrongLength 0 (.tagged u.name), stop⟩
  | (_, tag) :: items => do
    let case ← u.choice.codec.decode origin tag
    match items with
    | [] =>
      refuse (tail.map Break.kept)
      throw ⟨.wrongLength 1 (.tagged u.name), stop⟩
    | (_, content) :: rest =>
      let value ← case.decode origin content
      refuse (rest.head?.map fun item => Record.surplusFault origin stop (rest.length + 2) 2 item.1)
      refuse (tail.map Break.surplus)
      return value

def codec (u : TaggedUnion α) : Codec α where
  decode origin tree :=
    match tree with
    | .object span defect entries tail => do
      refuse defect
      u.decodeObject origin span.stop entries tail
    | .array span defect items tail => do
      refuse defect
      u.decodeItems origin span.stop tail items
    | _ => .error (mismatch (.tagged u.name) tree)
  encode value :=
    let (name, content) := u.encode value
    .object [(u.tag, .string name), (u.content, content)]

end TaggedUnion

end AgentWorkflow.Json
