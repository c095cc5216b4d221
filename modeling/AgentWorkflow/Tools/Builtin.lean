import AgentWorkflow.Text.Blank
import AgentWorkflow.Text.LowerCase

/-!
The tool library of generated programs.
-/

namespace AgentWorkflow.Builtin

open Text

def symbols : List String :=
  ["agent_graph", "batch", "calculator", "cron", "current_time", "diagram", "editor", "environment",
    "file_read", "file_write", "generate_image", "http_request", "image_reader", "journal",
    "load_tool", "mem0_memory", "memory", "nova_reels", "python_repl", "retrieve", "shell", "sleep",
    "slack", "speak", "stop", "think", "use_aws", "use_llm"]

/-- The symbol that stands in for a tool that is not in the library. -/
def fallback : String := "current_time"

/-- A character that separates words in the name of a tool. -/
def isSeparator (c : Char) : Bool :=
  c == '_' || c == '-' || c == ' '

/-- The part of a text after its last point. -/
def afterLastPoint (cs : List Char) : List Char :=
  (cs.reverse.takeWhile (· ≠ '.')).reverse

/-- A name without qualification, separators and case. -/
def normalized (name : String) : List Char :=
  lowerChars ((afterLastPoint (dropEnds isBlank name.toList)).filter fun c => !isSeparator c)

/-- The symbol that a name means, whatever its case and separators. -/
def symbol? (name : String) : Option String :=
  symbols.find? fun s => s.toList.filter (· ≠ '_') == normalized name

end AgentWorkflow.Builtin
