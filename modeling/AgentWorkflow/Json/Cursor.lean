import AgentWorkflow.Json.Tree
import AgentWorkflow.Json.Numeral

/-!
Scanning the words, numerals and strings of a JSON text.
-/

namespace AgentWorkflow.Json

def Position.after (p : Position) (c : Char) : Position :=
  if c = '\n' then ⟨p.line + 1, 0⟩ else ⟨p.line, p.column + c.utf8Size⟩

/-- The place some bytes further into the characters that follow. -/
def Position.afterBytes (p : Position) : Nat → List Char → Position
  | _, [] => p
  | n, c :: rest =>
    if c.utf8Size ≤ n then (p.after c).afterBytes (n - c.utf8Size) rest
    else ⟨p.line, p.column + n⟩

/-- The rest of a text, and the place where it starts. -/
structure Cursor where
  rest : List Char
  position : Position
  deriving DecidableEq, Repr

namespace Cursor

def start (cs : List Char) : Cursor := ⟨cs, ⟨1, 0⟩⟩

/-- The place one byte further, or the same at the end of the text. -/
def peekPosition (c : Cursor) : Position :=
  c.position.afterBytes 1 c.rest

/-- A fault at the byte that comes next. -/
def peekFault (c : Cursor) (cause : Cause) : Fault := ⟨cause, c.peekPosition⟩

def fault (c : Cursor) (cause : Cause) : Fault := ⟨cause, c.position⟩

/-- Passes over the blanks of JSON. -/
def skipBlanks : List Char → Position → Cursor
  | [], p => ⟨[], p⟩
  | c :: rest, p =>
    if c = ' ' ∨ c = '\n' ∨ c = '\t' ∨ c = '\r' then skipBlanks rest (p.after c) else ⟨c :: rest, p⟩

/-- The next character that is no blank. -/
def toToken (c : Cursor) : Cursor := skipBlanks c.rest c.position

/-- Passes over a character of one byte. -/
def advance (c : Cursor) : Cursor := ⟨c.rest.drop 1, c.peekPosition⟩

/-- The digits that come next, and what follows them. -/
def digits (c : Cursor) : List Char × Cursor :=
  let ds := c.rest.takeWhile Char.isDigit
  (ds, ⟨c.rest.dropWhile Char.isDigit, ⟨c.position.line, c.position.column + ds.length⟩⟩)

/-- Passes over the given characters of a word. -/
def word : List Char → Cursor → Except Fault Cursor
  | [], c => .ok c
  | w :: more, c =>
    match c.rest with
    | [] => .error (c.fault .endOfValue)
    | d :: _ => if d = w then word more c.advance else .error (c.peekFault .expectedWord)

/-- A break that all readers of a value meet alike; `start` is where the value starts. -/
def brokenAt (start : Cursor) (kept skipped : Fault) : Break :=
  ⟨kept, skipped, start.peekFault .surplusText, start.peekFault .expectedValue⟩

/-- A numeral without its sign, and what follows it. The error is what a reader that keeps the number
and one that skips it meet. -/
def numeral (negative : Bool) (c : Cursor) : Except (Fault × Fault) (Numeral × Cursor) := do
  let both (fault : Fault) : Fault × Fault := (fault, fault)
  let (whole, c') := c.digits
  match whole with
  | [] =>
    if c.rest.isEmpty then throw (c.fault .endOfValue, c.fault .badNumber)
    else throw (both (c.peekFault .badNumber))
  | '0' :: _ :: _ => throw (both (c.advance.peekFault .badNumber))
  | _ =>
  let (places, c') ← match c'.rest with
    | '.' :: _ =>
      let (ds, next) := c'.advance.digits
      if !ds.isEmpty then pure (some ds, next)
      else if next.rest.isEmpty then throw (next.peekFault .endOfValue, next.peekFault .badNumber)
      else throw (both (next.peekFault .badNumber))
    | _ => pure (none, c')
  let marked := c'.rest.head? == some 'e' || c'.rest.head? == some 'E'
  if !marked then return (⟨negative, whole, places, none⟩, c')
  let c' := c'.advance
  let down := c'.rest.head? == some '-'
  let c' := if down || c'.rest.head? == some '+' then c'.advance else c'
  let (ds, next) := c'.digits
  if !ds.isEmpty then return (⟨negative, whole, places, some (down, ds)⟩, next)
  else if c'.rest.isEmpty then throw (c'.fault .endOfValue, c'.fault .badNumber)
  else throw (both (c'.peekFault .badNumber))

/-- The number of a numeral that ends at the cursor, and its defect when it is out of range. -/
def number (numeral : Numeral) (stop : Cursor) : Number × Option Fault :=
  match numeral.value with
  | .ok n => (n, none)
  | .error after =>
    let place : Position := ⟨stop.position.line, stop.position.column - after⟩
    (.natural 0, some ⟨.numberTooLarge, place⟩)

def hexValue? (c : Char) : Option Nat :=
  if c.isDigit then some (c.toNat - '0'.toNat)
  else if 'a' ≤ c ∧ c ≤ 'f' then some (c.toNat - 'a'.toNat + 10)
  else if 'A' ≤ c ∧ c ≤ 'F' then some (c.toNat - 'A'.toNat + 10)
  else none

/-- The four hexadecimal digits that come next. -/
def hexUnit? : List Char → Option Nat
  | a :: b :: c :: d :: _ => do
    let a ← hexValue? a
    let b ← hexValue? b
    let c ← hexValue? c
    let d ← hexValue? d
    return ((a * 16 + b) * 16 + c) * 16 + d
  | _ => none

/-- The fault of four bytes that are no hexadecimal digits. -/
def hexFault (c : Cursor) : Fault :=
  if c.rest.foldl (fun bytes ch => bytes + ch.utf8Size) 0 < 4 then ⟨.endOfString, c.position.afterBytes 4 c.rest⟩
  else ⟨.badEscape, c.position.afterBytes 4 c.rest⟩

/-- The character that an escape of one letter stands for. -/
def escaped? : Char → Option Char
  | '"' => some '"'
  | '\\' => some '\\'
  | '/' => some '/'
  | 'b' => some '\x08'
  | 'f' => some '\x0c'
  | 'n' => some '\n'
  | 'r' => some '\r'
  | 't' => some '\t'
  | _ => none

def isLeading (unit : Nat) : Bool := 0xD800 ≤ unit && unit ≤ 0xDBFF

def isTrailing (unit : Nat) : Bool := 0xDC00 ≤ unit && unit ≤ 0xDFFF

/-- The character of a pair of surrogates. -/
def paired (leading trailing : Nat) : Char :=
  Char.ofNat (0x10000 + (leading - 0xD800) * 0x400 + (trailing - 0xDC00))

/-- What is wrong with the text after a leading surrogate; nothing where the text ends or breaks off
in a way that is a fault for every reader. -/
def pairDefect (c : Cursor) : Option Fault :=
  match c.rest with
  | [] => none
  | '\\' :: [] => none
  | '\\' :: 'u' :: rest =>
    match hexUnit? rest with
    | some unit =>
      if isTrailing unit then none else some ⟨.loneSurrogate, c.position.afterBytes 6 c.rest⟩
    | none => none
  | '\\' :: _ => some ⟨.cutSurrogate, c.position.afterBytes 2 c.rest⟩
  | _ => some (c.peekFault .cutSurrogate)

/-- A string after its opening quote: its text, its defect, and what follows the closing quote. Handed
in are a leading surrogate whose partner comes next, the characters read so far, last first, and the
defect of what was read. -/
def string : List Char → Position → Option Nat → List Char → Option Fault →
    Except (Fault × Fault) (String × Option Fault × Cursor)
  | [], p, _, _, defect => .error (defect.getD ⟨.endOfString, p⟩, ⟨.endOfString, p⟩)
  | '"' :: rest, p, _, read, defect => .ok (.ofList read.reverse, defect, ⟨rest, p.after '"'⟩)
  | '\\' :: 'u' :: a :: b :: c :: d :: rest, p, pending, read, defect =>
    let here : Cursor := ⟨a :: b :: c :: d :: rest, ⟨p.line, p.column + 2⟩⟩
    let next : Position := ⟨p.line, p.column + 6⟩
    match hexUnit? [a, b, c, d] with
    | none => .error (defect.getD here.hexFault, here.hexFault)
    | some unit =>
      match pending with
      | some leading => string rest next none (paired leading unit :: read) defect
      | none =>
        if isTrailing unit then string rest next none read (defect <|> some ⟨.loneSurrogate, next⟩)
        else if isLeading unit then
          let alone := pairDefect ⟨rest, next⟩
          string rest next (if alone.isSome then none else some unit) read (defect <|> alone)
        else string rest next none (Char.ofNat unit :: read) defect
  | '\\' :: 'u' :: rest, p, _, _, defect =>
    let here : Cursor := ⟨rest, ⟨p.line, p.column + 2⟩⟩
    .error (defect.getD here.hexFault, here.hexFault)
  | '\\' :: e :: rest, p, _, read, defect =>
    let here : Cursor := ⟨e :: rest, ⟨p.line, p.column + 1⟩⟩
    match escaped? e with
    | some c => string rest ⟨p.line, p.column + 2⟩ none (c :: read) defect
    | none => .error (defect.getD (here.peekFault .badEscape), here.peekFault .badEscape)
  | ['\\'], p, _, _, defect =>
    let place : Position := ⟨p.line, p.column + 1⟩
    .error (defect.getD ⟨.endOfString, place⟩, ⟨.endOfString, place⟩)
  | c :: rest, p, _, read, defect =>
    if c.toNat < 0x20 then
      let here : Cursor := ⟨c :: rest, p⟩
      .error (defect.getD (here.peekFault .controlCharacter), here.fault .controlCharacter)
    else string rest (p.after c) none (c :: read) defect

end Cursor

end AgentWorkflow.Json
