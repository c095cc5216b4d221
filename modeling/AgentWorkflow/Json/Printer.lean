import AgentWorkflow.Json.Value
import AgentWorkflow.Number.Shortest
import AgentWorkflow.Text.Escaped

/-!
The text of JSON values, over several lines: each item of a list and each entry of an object has a line
of its own, indented by two spaces for each level.
-/

namespace AgentWorkflow.Json

def Scalar.text : Scalar → String
  | .null => "null"
  | .bool b => toString b
  | .number (.natural n) => toString n
  | .number (.negative n) => "-" ++ toString n
  | .number (.float x) => x.documentText
  | .string s => Text.escaped s

/-- The start of a line at a level. -/
def newLine (level : Nat) : String :=
  "\n" ++ .ofList (List.replicate (2 * level) ' ')

/-- Texts between brackets, a line for each. -/
def bracketed (level : Nat) (left right : String) (items : List String) : String :=
  if items.isEmpty then left ++ right
  else
    left ++ newLine (level + 1) ++ (("," ++ newLine (level + 1)).intercalate items) ++
      newLine level ++ right

mutual

def printAt (level : Nat) : Json → String
  | .scalar s => s.text
  | .array items => bracketed level "[" "]" (printItems (level + 1) items)
  | .object entries => bracketed level "\x7b" "\x7d" (printEntries (level + 1) entries)

def printItems (level : Nat) : List Json → List String
  | [] => []
  | item :: rest => printAt level item :: printItems level rest

def printEntries (level : Nat) : List (String × Json) → List String
  | [] => []
  | (key, value) :: rest =>
    (Text.escaped key ++ ": " ++ printAt level value) :: printEntries level rest

end

def print (value : Json) : String :=
  value.printAt 0

def texts (items : List String) : Json :=
  .array (items.map .string)

def text (s : Option String) : Json :=
  match s with
  | some s => .string s
  | none => .null

end AgentWorkflow.Json
