import AgentWorkflow.Graph.Settings

/-!
What a tool server needs before it can be started.
-/

namespace AgentWorkflow

/-- Something that a tool server lacks. -/
inductive ServerFault where
  | noCommand
  | noUrl
  deriving DecidableEq, Repr

def ServerFault.message : ServerFault → String
  | .noCommand => "a stdio server needs a command"
  | .noUrl => "an HTTP server needs a url"

/-- What a server lacks that its transport needs. -/
def ServerSettings.fault? (s : ServerSettings) : Option ServerFault :=
  let lacks (setting : Option String) : Bool := (setting.bind Text.nonBlank?).isNone
  match s.transport with
  | .stdio => if lacks s.command then some .noCommand else none
  | .streamableHttp | .sse => if lacks s.url then some .noUrl else none

end AgentWorkflow
