import AgentWorkflow.Number.Binary64
import AgentWorkflow.Text.Blank

/-!
The settings of each kind of node, with their defaults.
-/

namespace AgentWorkflow

inductive Provider where
  | bedrock
  | openAi
  | anthropic
  | ollama
  deriving DecidableEq, Repr

namespace Provider

def defaultModel : Provider → String
  | .bedrock => "us.anthropic.claude-3-7-sonnet-20250219-v1:0"
  | .openAi => "gpt-4o"
  | .anthropic => "claude-3-7-sonnet-latest"
  | .ollama => "llama3"

/-- The environment variable that usually holds the credential. -/
def defaultKeyVariable? : Provider → Option String
  | .openAi => some "OPENAI_API_KEY"
  | .anthropic => some "ANTHROPIC_API_KEY"
  | .bedrock | .ollama => none

end Provider

/-- A model and how it is called. -/
structure ModelSettings where
  provider : Provider
  modelId : Option String
  temperature : Binary64
  maxTokens : UInt32
  region : Option String
  host : Option String
  keyVariable : Option String
  deriving DecidableEq, Repr

namespace ModelSettings

/-- The settings of an untouched node. -/
def default : ModelSettings where
  provider := .bedrock
  modelId := none
  temperature := .ofDecimal false 7 (-1)
  maxTokens := 4000
  region := none
  host := none
  keyVariable := none

/-- The model named, or the provider's own unless the name is blank. -/
def resolvedModel (s : ModelSettings) : String :=
  (s.modelId.bind Text.nonBlank?).getD s.provider.defaultModel

/-- The environment variable of the credential: the one named, or the provider's own. -/
def resolvedKeyVariable? (s : ModelSettings) : Option String :=
  (s.keyVariable.bind Text.nonBlank?) <|> s.provider.defaultKeyVariable?

end ModelSettings

/-- An agent: a model with its instructions. -/
structure AgentSettings where
  model : ModelSettings
  systemPrompt : String
  streaming : Bool
  description : Option String
  deriving DecidableEq, Repr

def AgentSettings.default : AgentSettings where
  model := .default
  systemPrompt := ""
  streaming := false
  description := none

/-- An agent that delegates to others. -/
structure OrchestratorSettings where
  agent : AgentSettings
  coordinationPrompt : Option String
  deriving DecidableEq, Repr

def OrchestratorSettings.default : OrchestratorSettings where
  agent := .default
  coordinationPrompt := none

/-- A team whose members hand work to each other, with the bounds on their doing so. -/
structure SwarmSettings where
  maxHandoffs : UInt32
  maxIterations : UInt32
  executionTimeout : Binary64
  nodeTimeout : Binary64
  repetitionWindow : UInt32
  repetitionMinAgents : UInt32
  entryPoint : Option String
  description : Option String
  deriving DecidableEq, Repr

/-- The settings of an untouched swarm; the bounds are those of the swarm's own defaults. -/
def SwarmSettings.default : SwarmSettings where
  maxHandoffs := 20
  maxIterations := 20
  executionTimeout := .ofNat 900
  nodeTimeout := .ofNat 300
  repetitionWindow := 0
  repetitionMinAgents := 0
  entryPoint := none
  description := none

/-- A container whose members form a dependency graph. -/
structure ContainerSettings where
  executionTimeout : Option Binary64
  nodeTimeout : Option Binary64
  maxNodeExecutions : Option UInt32
  resetOnRevisit : Bool
  description : Option String
  deriving DecidableEq, Repr

def ContainerSettings.default : ContainerSettings where
  executionTimeout := none
  nodeTimeout := none
  maxNodeExecutions := none
  resetOnRevisit := false
  description := none

/-- A tool of the tool library, by name. -/
structure BuiltinToolSettings where
  toolName : String
  deriving DecidableEq, Repr

def BuiltinToolSettings.default : BuiltinToolSettings := ⟨""⟩

/-- A tool given by its code. -/
structure CustomToolSettings where
  code : String
  description : Option String
  deriving DecidableEq, Repr

def CustomToolSettings.default : CustomToolSettings := ⟨"", none⟩

inductive Transport where
  | stdio
  | streamableHttp
  | sse
  deriving DecidableEq, Repr

/-- A server that lists its tools when the program runs. The values of `env` and `headers` may refer to
the environment of the run. -/
structure ServerSettings where
  transport : Transport
  command : Option String
  args : List String
  env : List (String × String)
  url : Option String
  headers : List (String × String)
  startupTimeout : Option UInt32
  deriving DecidableEq, Repr

def ServerSettings.default : ServerSettings where
  transport := .stdio
  command := none
  args := []
  env := []
  url := none
  headers := []
  startupTimeout := none

structure InputSettings where
  defaultContent : Option String
  deriving DecidableEq, Repr

def InputSettings.default : InputSettings := ⟨none⟩

structure OutputSettings where
  format : Option String
  deriving DecidableEq, Repr

def OutputSettings.default : OutputSettings := ⟨none⟩

end AgentWorkflow
