import AgentWorkflow.Json.Cursor

/-!
Reading a JSON text.

`Reading.ofText` turns any text into a located tree; where the text stops being JSON the tree breaks
off. Lists and objects may be nested a hundred and twenty-seven deep for readers that keep them.
-/

namespace AgentWorkflow.Json

/-- A tree and what follows it in the text; nothing follows a tree that breaks off. -/
abbrev TreeReading := Tree × Option Cursor

/-- The nesting at which lists and objects are too deep to be kept. -/
def depthLimit : Nat := 128

namespace Cursor

/-- A tree that is broken off from the start. -/
def breakOff (b : Break) : TreeReading := (.broken b, none)

def readWord (start : Cursor) (letters : List Char) (value : Scalar) : TreeReading :=
  match word letters start with
  | .ok stop => (.scalar ⟨start.position, stop.position⟩ value none, some stop)
  | .error fault => breakOff (brokenAt start fault fault)

def readNumber (start : Cursor) : TreeReading :=
  let negative := start.rest.head? == some '-'
  match numeral negative (if negative then start.advance else start) with
  | .ok (n, stop) =>
    let (value, defect) := number n stop
    (.scalar ⟨start.position, stop.position⟩ (.number value) defect, some stop)
  | .error (kept, skipped) => breakOff (brokenAt start kept skipped)

def readString (start : Cursor) : TreeReading :=
  match string start.advance.rest start.advance.position none [] none with
  | .ok (s, defect, stop) => (.scalar ⟨start.position, stop.position⟩ (.string s) defect, some stop)
  | .error (kept, skipped) => breakOff { brokenAt start kept skipped with named := kept }

/-- A value without parts; the cursor is at its first character. -/
def readScalar (start : Cursor) : TreeReading :=
  match start.rest with
  | [] =>
    let fault := start.fault .endOfValue
    breakOff { brokenAt start fault fault with named := fault }
  | c :: _ =>
    if c = 'n' then readWord start "null".toList .null
    else if c = 't' then readWord start "true".toList (.bool true)
    else if c = 'f' then readWord start "false".toList (.bool false)
    else if c = '"' then readString start
    else if c = '-' ∨ c.isDigit then readNumber start
    else
      let fault := start.peekFault .expectedValue
      breakOff (brokenAt start fault fault)

/-- What a reader that wants a name meets where a key should stand and does not. -/
def namedFault (c : Cursor) : Fault :=
  match c.rest with
  | '[' :: _ => c.fault (.wrongType .sequence .choiceName)
  | '{' :: _ => c.fault (.wrongType .map .choiceName)
  | _ =>
    match readScalar c with
    | (.scalar span value defect, _) =>
      defect.getD ⟨.wrongType (.scalar value) .choiceName, span.stop⟩
    | (.broken b, _) => b.kept
    | _ => c.peekFault .expectedValue

def listBreak (kept skipped surplus : Fault) : Break := ⟨kept, skipped, surplus, kept⟩

/-- The defect of a list or an object that opens at a nesting. -/
def depthDefect (depth : Nat) (start : Cursor) : Option Fault :=
  if depthLimit ≤ depth then some (start.peekFault .tooDeep) else none

/-- Whether the next thing in a list is an item, the end, or a break; an item comes with its cursor and
the fault for a reader that wants no further item. -/
def nextItem (first : Bool) (c : Cursor) : Except (Option Break × Cursor) (Fault × Cursor) :=
  let c := c.toToken
  match c.rest with
  | [] =>
    let fault := c.fault .endOfList
    .error (some (listBreak fault fault fault), c)
  | d :: _ =>
    if d = ']' then .error (none, c.advance)
    else if first then .ok (c.peekFault .surplusText, c)
    else if d = ',' then
      let item := c.advance.toToken
      match item.rest with
      | [] =>
        let fault := item.fault .endOfValue
        .error (some (listBreak fault fault (item.fault .surplusText)), item)
      | e :: _ =>
        if e = ']' then
          let comma := item.peekFault .danglingComma
          .error (some (listBreak comma (item.peekFault .expectedValue) comma), item)
        else .ok (item.peekFault .surplusText, item)
    else
      let fault := c.peekFault .expectedListEnd
      .error (some (listBreak fault fault (c.peekFault .surplusText)), c)

/-- Whether the next thing in an object is a key, the end, or a break; a key comes with its cursor and
the fault for a reader that wants no further entry. -/
def nextKey (first : Bool) (c : Cursor) : Except (Option Break × Cursor) (Fault × Cursor) :=
  let c := c.toToken
  match c.rest with
  | [] =>
    let fault := c.fault .endOfObject
    .error (some ⟨fault, fault, fault, c.fault .endOfValue⟩, c)
  | d :: _ =>
    if d = '}' then .error (none, c.advance)
    else if first then
      if d = '"' then .ok (c.fault .expectedValue, c)
      else
        let fault := c.peekFault .keyNotString
        .error (some ⟨fault, fault, fault, namedFault c⟩, c)
    else if d = ',' then
      let surplus := c.fault .expectedValue
      let key := c.advance.toToken
      match key.rest with
      | [] =>
        .error (some (listBreak (key.fault .endOfValue) (key.fault .endOfObject) surplus), key)
      | e :: _ =>
        if e = '"' then .ok (surplus, key)
        else if e = '}' then
          let kept := key.peekFault .danglingComma
          .error (some (listBreak kept (key.peekFault .keyNotString) surplus), key)
        else
          let fault := key.peekFault .keyNotString
          .error (some (listBreak fault fault surplus), key)
    else
      let fault := c.peekFault .expectedObjectEnd
      .error (some (listBreak fault fault (c.fault .expectedValue)), c)

/-- The key at its opening quote, and the cursor at what follows it. -/
def readKey (surplus : Fault) (start : Cursor) : Except Break (Key × Cursor) :=
  match string start.advance.rest start.advance.position none [] none with
  | .error (kept, skipped) => .error ⟨kept, skipped, surplus, kept⟩
  | .ok (name, defect, stop) =>
    let next := stop.toToken
    let dropped := if next.rest.head? = some '}' then next.advance else next
    .ok (⟨name, defect, stop.position, dropped.position, surplus⟩, next)

/-- The cursor after the colon, or the break where there is none. -/
def passColon (c : Cursor) : Except Break Cursor :=
  match c.rest with
  | ':' :: _ => .ok c.advance
  | [] =>
    let fault := c.fault .endOfObject
    .error (listBreak fault fault fault)
  | _ =>
    let fault := c.peekFault .expectedColon
    .error (listBreak fault fault fault)

mutual

/-- Reads a value. The fuel bounds the number of steps; twice the length of the text is enough. -/
def readValue : Nat → Nat → Cursor → TreeReading
  | 0, _, c => readScalar c
  | fuel + 1, depth, c =>
    let start := c.toToken
    match start.rest with
    | '[' :: _ =>
      let (items, tail, next) := readItems fuel (depth + 1) true start.advance
      let stop := (next.getD start).position
      (.array ⟨start.position, stop⟩ (depthDefect (depth + 1) start) items tail, next)
    | '{' :: _ =>
      let (entries, tail, next) := readEntries fuel (depth + 1) true start.advance
      let stop := (next.getD start).position
      (.object ⟨start.position, stop⟩ (depthDefect (depth + 1) start) entries tail, next)
    | _ => readScalar start

def readItems : Nat → Nat → Bool → Cursor → List (Fault × Tree) × Option Break × Option Cursor
  | 0, _, _, c => ([], some (brokenAt c (c.fault .endOfList) (c.fault .endOfList)), none)
  | fuel + 1, depth, first, c =>
    match nextItem first c with
    | .error (none, next) => ([], none, some next)
    | .error (some b, _) => ([], some b, none)
    | .ok (surplus, start) =>
      match readValue fuel depth start with
      | (item, none) => ([(surplus, item)], none, none)
      | (item, some next) =>
        let (items, tail, next) := readItems fuel depth false next
        ((surplus, item) :: items, tail, next)

def readEntries : Nat → Nat → Bool → Cursor → List (Key × Tree) × Option Break × Option Cursor
  | 0, _, _, c => ([], some (brokenAt c (c.fault .endOfObject) (c.fault .endOfObject)), none)
  | fuel + 1, depth, first, c =>
    match nextKey first c with
    | .error (none, next) => ([], none, some next)
    | .error (some b, _) => ([], some b, none)
    | .ok (surplus, start) =>
      match readKey surplus start with
      | .error b => ([], some b, none)
      | .ok (key, next) =>
        match passColon next with
        | .error b => ([(key, .broken b)], none, none)
        | .ok next =>
          match readValue fuel depth next with
          | (value, none) => ([(key, value)], none, none)
          | (value, some next) =>
            let (entries, tail, next) := readEntries fuel depth false next
            ((key, value) :: entries, tail, next)

end

end Cursor

/-- A text read as one JSON value: the value's tree, and the fault of what follows it. -/
structure Reading where
  tree : Tree
  trailing : Option Fault

namespace Reading

def ofText (text : String) : Reading :=
  let cs := text.toList
  match Cursor.readValue (2 * cs.length + 2) 0 (.start cs) with
  | (tree, none) => ⟨tree, none⟩
  | (tree, some next) =>
    let next := next.toToken
    ⟨tree, if next.rest.isEmpty then none else some (next.peekFault .surplusText)⟩

/-- The value of a text that is JSON from its start to its end. -/
def value (text : String) : Except Fault Json := do
  let reading := ofText text
  let value ← reading.tree.check
  refuse reading.trailing
  return value

end Reading

end AgentWorkflow.Json
