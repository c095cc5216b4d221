import AgentWorkflow.Number.Shortest
import AgentWorkflow.Text.Blank
import AgentWorkflow.Text.Escaped

/-!
Values written as literals of the generated program.

A literal is opened and closed by quotes that nothing inside it can be taken for: quotes and
backslashes are escaped, and so are the control characters of a literal on one line.
-/

namespace AgentWorkflow.Literal

open Text

/-- A character inside a literal over several lines. -/
def tripleChar (c : Char) : List Char :=
  if c = '"' ∨ c = '\\' then ['\\', c] else [c]

/-- The characters of a literal over several lines. -/
def blockChars (cs : List Char) : List Char :=
  ['"', '"', '"'] ++ cs.flatMap tripleChar ++ ['"', '"', '"']

/-- A text as a literal on one line. -/
def line (s : String) : String :=
  escaped s

/-- A text as a literal that keeps its line breaks: over several lines if there are any. -/
def text (s : String) : String :=
  .ofList (if s.toList.contains '\n' then blockChars s.toList else escapedChars s.toList)

/-- A trimmed text as the literal that documents a function. -/
def docstring (s : String) : String :=
  .ofList (blockChars (dropEnds isBlank s.toList))

/-- A number; what is not finite is no value. -/
def number (x : Binary64) : String :=
  if x.isFinite then x.programText else "None"

def list (items : List String) : String :=
  "[" ++ ", ".intercalate items ++ "]"

def dict (entries : List (String × String)) : String :=
  "\x7b" ++ ", ".intercalate (entries.map fun (key, value) => key ++ ": " ++ value) ++ "\x7d"

end AgentWorkflow.Literal
