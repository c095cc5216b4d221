import AgentWorkflow.Text.Blank
import AgentWorkflow.Text.LowerCase

/-!
Identifiers made from free text.

`ofLabel` turns any label into an identifier of lower-case letters, digits and single underscores
that starts with a letter and is no keyword of the generated language.
-/

namespace AgentWorkflow.Identifier

open Text

/-- The keywords of the generated language, in lower case. -/
def keywords : List String :=
  ["false", "none", "true", "and", "as", "assert", "async", "await", "break", "class", "continue",
    "def", "del", "elif", "else", "except", "finally", "for", "from", "global", "if", "import", "in",
    "is", "lambda", "nonlocal", "not", "or", "pass", "raise", "return", "try", "while", "with",
    "yield"]

/-- A letter or digit stands for itself, anything else for an underscore. -/
def identChar (c : Char) : Char :=
  if isAsciiAlphanumeric c then c else '_'

/-- Keeps one underscore of each run. -/
def collapse : List Char → List Char
  | [] => []
  | c :: rest => if c = '_' ∧ rest.head? = some '_' then collapse rest else c :: collapse rest

/-- Drops the underscores at both ends. -/
def bare (cs : List Char) : List Char :=
  dropEnds (· == '_') cs

/-- The words of a label, joined by single underscores; empty when the label has none. -/
def words (label : List Char) : List Char :=
  bare (collapse ((lowerChars label).map identChar))

/-- Completes joined words to an identifier: `node` when there are none, `n_` before a digit, an
underscore after a keyword. -/
def complete (cs : List Char) : List Char :=
  let cs := if cs.isEmpty then "node".toList else cs
  let cs := if cs.head?.any Char.isDigit then 'n' :: '_' :: cs else cs
  if keywords.contains (String.ofList cs) then cs ++ ['_'] else cs

def ofLabel (label : String) : String :=
  .ofList (complete (words label.toList))

/-- The suffix that a node's id lends to an identifier: what the last four characters hold of
letters and digits, `x` when they hold none. -/
def idSuffix (id : String) : String :=
  match bare ((lowerChars (lastFour id).toList).map identChar) with
  | [] => "x"
  | cs => .ofList cs

end AgentWorkflow.Identifier
