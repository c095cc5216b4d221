import AgentWorkflow.Text.Blank
import AgentWorkflow.Text.Word

/-!
The code of custom tools.

Code is dedented before it is used. The function that it defines is found line by line: a function
below a tool decorator if there is one, else the first function at the margin.
-/

namespace AgentWorkflow

/-- What the code of a custom tool defines. -/
structure CustomCode where
  /-- The function defined, if any. -/
  function : Option String
  /-- Whether the function has the tool decorator already. -/
  decorated : Bool
  /-- The code, dedented. -/
  code : String
  deriving DecidableEq, Repr

namespace CustomCode

open Text

/-- A character of an indentation. -/
def isIndent (c : Char) : Bool := c == ' ' || c == '\t'

def isBlankLine (line : List Char) : Bool := line.all isBlank

/-- The width of the indentation of a line. -/
def indentation (line : List Char) : Nat := (line.takeWhile isIndent).length

/-- The least indentation of the lines that are not blank. -/
def margin (lines : List (List Char)) : Nat :=
  (((lines.filter fun l => !isBlankLine l).map indentation).min?).getD 0

/-- A line without the margin; nothing of a blank line. -/
def withoutMargin (margin : Nat) (line : List Char) : List Char :=
  if isBlankLine line then [] else line.drop margin

/-- Code without its margin, without blanks at the ends of lines, and without empty lines at its
ends. -/
def dedentChars (cs : List Char) : List Char :=
  let lines := (lines cs).map (dropTail isBlank)
  dropEnds (· == '\n') (unpieces (lines.map (withoutMargin (margin lines))))

def dedent (code : String) : String :=
  .ofList (dedentChars code.toList)

def unindented (line : List Char) : List Char := line.dropWhile isIndent

/-- The text after a word and the blanks that must follow it. -/
def afterWord? (word : List Char) (text : List Char) : Option (List Char) :=
  (afterHead? word text).bind fun rest =>
    if rest.head?.any isIndent then some (unindented rest) else none

/-- A letter of ASCII or an underscore, with which a name starts. -/
def startsName (c : Char) : Bool := c.isAlpha || c == '_'

/-- A character with which a name goes on. -/
def continuesName (c : Char) : Bool := c.isAlphanum || c == '_'

/-- The name that a text starts with. -/
def leadingName? : List Char → Option String
  | [] => none
  | c :: rest => if startsName c then some (.ofList (c :: rest.takeWhile continuesName)) else none

/-- The name in the header of a function definition. -/
def definedName? (text : List Char) : Option String :=
  (afterWord? "def".toList ((afterWord? "async".toList text).getD text)).bind leadingName?

/-- A line that decorates what follows it. -/
def isDecorator (line : List Char) : Bool := (unindented line).head? == some '@'

/-- A line that makes what follows it a tool. -/
def isToolDecorator (line : List Char) : Bool :=
  match unindented line with
  | '@' :: rest =>
    let rest := (afterHead? "strands.".toList rest).getD rest
    (afterHead? "tool".toList rest).any endsWord
  | _ => false

/-- The function that decorated lines lead to. -/
def decoratedName? : List (List Char) → Option String
  | [] => none
  | line :: rest =>
    if isDecorator line then decoratedName? rest else definedName? (unindented line)

/-- The first function below a tool decorator. -/
def toolName? : List (List Char) → Option String
  | [] => none
  | line :: rest =>
    (if isToolDecorator line then decoratedName? rest else none) <|> toolName? rest

/-- The first function at the margin. -/
def plainName? (lines : List (List Char)) : Option String :=
  lines.findSome? definedName?

def scan (code : String) : CustomCode :=
  let cs := dedentChars code.toList
  let lines := pieces cs
  match toolName? lines with
  | some name => ⟨some name, true, .ofList cs⟩
  | none => ⟨plainName? lines, false, .ofList cs⟩

end CustomCode

end AgentWorkflow
