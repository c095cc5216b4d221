import AgentWorkflow.Program.Code

/-!
Fragments: pieces of a program made for one node, each of a kind that decides where it stands.
-/

namespace AgentWorkflow

inductive FragmentKind where
  | customTool
  | client
  | wrapper
  | agent
  | composition
  | entry
  deriving DecidableEq, Repr

/-- The kinds, in the order in which their fragments stand. -/
def FragmentKind.all : List FragmentKind :=
  [.customTool, .client, .wrapper, .agent, .composition, .entry]

structure Fragment where
  kind : FragmentKind
  node : Option String
  code : List Code

namespace Fragment

/-- The fragments by kind; those of one kind keep their order. -/
def arrange (fragments : List Fragment) : List Fragment :=
  FragmentKind.all.flatMap fun kind => fragments.filter (·.kind = kind)

/-- Puts an empty line and further code after code that is there. -/
def joinBlank (code more : List Code) : List Code :=
  if code.isEmpty then more else code ++ .blank :: more

/-- The code of fragments as it stands in the program, an empty line between them. -/
def layout (fragments : List Fragment) : List Code :=
  (arrange fragments).foldl (fun code f => joinBlank code f.code) []

end Fragment

end AgentWorkflow
