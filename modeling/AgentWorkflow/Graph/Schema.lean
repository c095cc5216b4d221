import AgentWorkflow.Graph.Basic
import AgentWorkflow.Json.Record

/-!
The JSON form of graphs and of the settings of their nodes.

Settings are read from what an editor stores with a node as well as from a canonical graph, so most
fields have a second spelling; they are written with the first one.
-/

namespace AgentWorkflow

open Json

namespace Provider

def choice : Choice Provider where
  spellings := [("AWS Bedrock", .bedrock), ("Bedrock", .bedrock), ("aws", .bedrock),
    ("bedrock", .bedrock), ("OpenAI", .openAi), ("open-ai", .openAi), ("openai", .openAi),
    ("Anthropic", .anthropic), ("anthropic", .anthropic), ("Ollama", .ollama), ("ollama", .ollama)]
  name
    | .bedrock => "bedrock"
    | .openAi => "openai"
    | .anthropic => "anthropic"
    | .ollama => "ollama"

end Provider

namespace Transport

def choice : Choice Transport where
  spellings := [("stdio", .stdio), ("http", .streamableHttp), ("streamable-http", .streamableHttp),
    ("streamableHttp", .streamableHttp), ("streamable_http", .streamableHttp), ("sse", .sse)]
  name
    | .stdio => "stdio"
    | .streamableHttp => "streamable-http"
    | .sse => "sse"

end Transport

def ModelSettings.record : Record ModelSettings where
  name := "ModelConfig"
  initial := .default
  fields := [
    .of "provider" ["modelProvider"] Provider.choice.codec provider fun v r =>
      { r with provider := v },
    .of "model_id" ["modelId", "model"] Codec.text.optional modelId fun v r => { r with modelId := v },
    .of "temperature" [] .real temperature fun v r => { r with temperature := v },
    .of "max_tokens" ["maxTokens"] .word maxTokens fun v r => { r with maxTokens := v },
    .of "region" ["regionName"] Codec.text.optional region fun v r => { r with region := v },
    .of "host" ["baseUrl", "ollamaHost"] Codec.text.optional host fun v r => { r with host := v },
    .of "api_key_env" ["apiKeyEnv"] Codec.text.optional keyVariable fun v r =>
      { r with keyVariable := v }]
  inner := none

/-- The form of agent settings; the fields of the model stand among the agent's own. -/
def AgentSettings.record : Record AgentSettings where
  name := "AgentConfig"
  initial := .default
  fields := [
    .of "system_prompt" ["systemPrompt"] .text systemPrompt fun v r => { r with systemPrompt := v },
    .of "streaming" ["streamingEnabled"] .flag streaming fun v r => { r with streaming := v },
    .of "description" [] Codec.text.optional description fun v r => { r with description := v }]
  inner := some (ModelSettings.record.inside model fun v r => { r with model := v })

/-- The form of orchestrator settings; the fields of the agent stand among the orchestrator's own. -/
def OrchestratorSettings.record : Record OrchestratorSettings where
  name := "OrchestratorConfig"
  initial := .default
  fields := [
    .of "coordination_prompt" ["coordinationPrompt"] Codec.text.optional coordinationPrompt
      fun v r => { r with coordinationPrompt := v }]
  inner := some (AgentSettings.record.inside agent fun v r => { r with agent := v })

def SwarmSettings.record : Record SwarmSettings where
  name := "SwarmConfig"
  initial := .default
  fields := [
    .of "max_handoffs" ["maxHandoffs"] .word maxHandoffs fun v r => { r with maxHandoffs := v },
    .of "max_iterations" ["maxIterations"] .word maxIterations fun v r =>
      { r with maxIterations := v },
    .of "execution_timeout" ["executionTimeout"] .real executionTimeout fun v r =>
      { r with executionTimeout := v },
    .of "node_timeout" ["nodeTimeout"] .real nodeTimeout fun v r => { r with nodeTimeout := v },
    .of "repetitive_handoff_detection_window" ["repetitiveHandoffDetectionWindow"] .word
      repetitionWindow fun v r => { r with repetitionWindow := v },
    .of "repetitive_handoff_min_unique_agents" ["repetitiveHandoffMinUniqueAgents"] .word
      repetitionMinAgents fun v r => { r with repetitionMinAgents := v },
    .of "entry_point" ["entryPoint"] Codec.text.optional entryPoint fun v r =>
      { r with entryPoint := v },
    .of "description" [] Codec.text.optional description fun v r => { r with description := v }]
  inner := none

def ContainerSettings.record : Record ContainerSettings where
  name := "GraphConfig"
  initial := .default
  fields := [
    .of "execution_timeout" ["executionTimeout"] Codec.real.optional executionTimeout fun v r =>
      { r with executionTimeout := v },
    .of "node_timeout" ["nodeTimeout"] Codec.real.optional nodeTimeout fun v r =>
      { r with nodeTimeout := v },
    .of "max_node_executions" ["maxNodeExecutions"] Codec.word.optional maxNodeExecutions fun v r =>
      { r with maxNodeExecutions := v },
    .of "reset_on_revisit" ["resetOnRevisit"] .flag resetOnRevisit fun v r =>
      { r with resetOnRevisit := v },
    .of "description" [] Codec.text.optional description fun v r => { r with description := v }]
  inner := none

def BuiltinToolSettings.record : Record BuiltinToolSettings where
  name := "BuiltinToolConfig"
  initial := .default
  fields := [.of "tool_name" ["toolName", "tool", "name"] .text toolName fun v _ => ⟨v⟩]
  inner := none

def CustomToolSettings.record : Record CustomToolSettings where
  name := "CustomToolConfig"
  initial := .default
  fields := [
    .of "code" ["pythonCode", "source"] .text code fun v r => { r with code := v },
    .of "description" [] Codec.text.optional description fun v r => { r with description := v }]
  inner := none

def ServerSettings.record : Record ServerSettings where
  name := "McpServerConfig"
  initial := .default
  fields := [
    .of "transport" ["transportType"] Transport.choice.codec transport fun v r =>
      { r with transport := v },
    .of "command" [] Codec.text.optional command fun v r => { r with command := v },
    .of "args" [] Codec.text.list args fun v r => { r with args := v },
    .of "env" [] Codec.text.table env fun v r => { r with env := v },
    .of "url" ["serverUrl"] Codec.text.optional url fun v r => { r with url := v },
    .of "headers" [] Codec.text.table headers fun v r => { r with headers := v },
    .of "startup_timeout" ["startupTimeout"] Codec.word.optional startupTimeout fun v r =>
      { r with startupTimeout := v }]
  inner := none

def InputSettings.record : Record InputSettings where
  name := "InputConfig"
  initial := .default
  fields := [
    .of "default_content" ["defaultContent", "defaultInput", "prompt", "value"] Codec.text.optional
      defaultContent fun v _ => ⟨v⟩]
  inner := none

def OutputSettings.record : Record OutputSettings where
  name := "OutputConfig"
  initial := .default
  fields := [.of "format" [] Codec.text.optional format fun v _ => ⟨v⟩]
  inner := none

namespace NodeKind

def tag : NodeKind → String
  | .agent _ => "agent"
  | .orchestrator _ => "orchestrator"
  | .swarm _ => "swarm"
  | .container _ => "graph"
  | .builtinTool _ => "builtin-tool"
  | .customTool _ => "custom-tool"
  | .server _ => "mcp-server"
  | .input _ => "input"
  | .output _ => "output"

/-- A kind whose settings are a record. -/
def case {σ : Type} (kind : σ → NodeKind) (r : Record σ) : Case NodeKind where
  name := (kind r.initial).tag
  decode origin tree := kind <$> r.codec.decode origin tree

def settingsJson : NodeKind → Json
  | .agent s => AgentSettings.record.codec.encode s
  | .orchestrator s => OrchestratorSettings.record.codec.encode s
  | .swarm s => SwarmSettings.record.codec.encode s
  | .container s => ContainerSettings.record.codec.encode s
  | .builtinTool s => BuiltinToolSettings.record.codec.encode s
  | .customTool s => CustomToolSettings.record.codec.encode s
  | .server s => ServerSettings.record.codec.encode s
  | .input s => InputSettings.record.codec.encode s
  | .output s => OutputSettings.record.codec.encode s

/-- The nine kinds and the form of their settings. -/
def cases : List (Case NodeKind) := [
  case .agent AgentSettings.record,
  case .orchestrator OrchestratorSettings.record,
  case .swarm SwarmSettings.record,
  case .container ContainerSettings.record,
  case .builtinTool BuiltinToolSettings.record,
  case .customTool CustomToolSettings.record,
  case .server ServerSettings.record,
  case .input InputSettings.record,
  case .output OutputSettings.record]

def union : TaggedUnion NodeKind where
  name := "NodeKind"
  tag := "type"
  content := "config"
  cases := cases
  encode kind := (kind.tag, kind.settingsJson)

end NodeKind

def Handle.codec : Codec Handle :=
  Codec.text.map ofName name

def Node.record : Record Node where
  name := "NodeDefinition"
  initial := ⟨"", "", .input .default⟩
  fields := [
    (Field.of "id" [] .text Node.id fun v r => { r with id := v }).require,
    (Field.of "label" [] .text Node.label fun v r => { r with label := v }).require,
    (Field.of "kind" [] NodeKind.union.codec Node.kind fun v r => { r with kind := v }).require]
  inner := none

def Edge.record : Record Edge where
  name := "EdgeDefinition"
  initial := ⟨"", .output, "", .output⟩
  fields := [
    (Field.of "source" [] .text Edge.source fun v r => { r with source := v }).require,
    (Field.of "source_handle" [] Handle.codec Edge.sourceHandle fun v r =>
      { r with sourceHandle := v }).require,
    (Field.of "target" [] .text Edge.target fun v r => { r with target := v }).require,
    (Field.of "target_handle" [] Handle.codec Edge.targetHandle fun v r =>
      { r with targetHandle := v }).require]
  inner := none

def Graph.record : Record Graph where
  name := "GraphDefinition"
  initial := ⟨[], []⟩
  fields := [
    (Field.of "nodes" [] Node.record.codec.list Graph.nodes fun v r => { r with nodes := v }).require,
    (Field.of "edges" [] Edge.record.codec.list Graph.edges fun v r =>
      { r with edges := v }).require]
  inner := none

end AgentWorkflow
