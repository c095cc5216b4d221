import AgentWorkflow.Program.EnvText
import AgentWorkflow.Program.Imports
import AgentWorkflow.Program.Printer

/-!
What a generated program is made of.

A `Code` says what a piece of the program declares or does: a model, an agent, a swarm, a step of
building a dependency graph, a client of a tool server, the code of a tool, a function that wraps a
node. Its names are the names of the program. `Code.stmts` lays it out as statements.
-/

namespace AgentWorkflow

inductive ToolEntry where
  /-- A tool of the tool library. -/
  | symbol (name : String)
  /-- The function of a custom tool. -/
  | function (name : String)
  /-- The function that wraps another node. -/
  | delegate (name : String)
  /-- All tools that a server lists. -/
  | listed (client : String)
  deriving DecidableEq, Repr

/-- An entry as it stands in the list. -/
def ToolEntry.expression : ToolEntry → String
  | .symbol name | .function name | .delegate name => name
  | .listed client => "*" ++ client ++ ".list_tools_sync()"

/-- How an executable runs: an agent that streams its answer, an agent that answers once, a swarm, or a
dependency graph. -/
inductive Execution where
  | streaming
  | blocking
  | swarm
  | graph
  deriving DecidableEq, Repr

/-- A bound on the run of a dependency graph. -/
inductive Limit where
  | executionTimeout (seconds : Binary64)
  | nodeTimeout (seconds : Binary64)
  | maxNodeExecutions (count : UInt32)
  | resetOnRevisit
  deriving DecidableEq, Repr

/-- A piece of a generated program. -/
inductive Code where
  | plain (stmt : Stmt)
  | model (name : String) (settings : ModelSettings)
  | agent (name ident modelName systemPrompt : String) (tools : List ToolEntry)
      (description : Option String)
  | swarm (name : String) (members : List String) (entry : Option String) (settings : SwarmSettings)
  | newBuilder (builder : String)
  | addNode (builder member id : String)
  | addEdge (builder source target : String)
  | entryPoint (builder id : String)
  | limit (builder : String) (bound : Limit)
  | build (name builder : String)
  | client (name : String) (settings : ServerSettings)
  /-- The code of a custom tool, which defines the function. -/
  | definition (function code : String)
  /-- Makes a plain function a tool. -/
  | decorate (function : String)
  | toolFunction (name description : String) (body : List Code)
  | withClients (clients : List String) (body : List Code)
  /-- Runs a wrapped node on the query and returns its final text. -/
  | answer (execution : Execution) (name : String)
  /-- Runs the root on the prompt and prints its result. -/
  | drive (execution : Execution) (name : String)
  | main (body : List Code)

namespace Code

def line (text : String) : Code := .plain (.line text)

def blank : Code := .plain .blank

/-- The features that a piece of code uses itself, apart from the pieces inside it. -/
def features : Code → List Feature
  | .model _ settings =>
    .model settings.provider :: (if settings.resolvedKeyVariable?.isSome then [.os] else [])
  | .agent _ _ _ _ tools _ =>
    .agent :: tools.filterMap fun
      | .symbol name => some (.builtin name)
      | _ => none
  | .swarm .. => [.swarm]
  | .newBuilder _ => [.graphBuilder]
  | .client _ settings =>
    let texts : List String := match settings.transport with
      | .stdio => settings.command.getD "" :: settings.args ++ settings.env.map (·.2)
      | .streamableHttp | .sse => settings.url.getD "" :: settings.headers.map (·.2)
    [.client, .transport settings.transport] ++ (if texts.any EnvText.hasReference then [.os] else [])
  | .definition .. | .decorate _ | .toolFunction .. => [.tool]
  | _ => []

/-- The dictionary of settings that may refer to the environment. -/
def envDict (entries : List (String × String)) : String :=
  Literal.dict (entries.map fun (key, value) => (Literal.line key, EnvText.expression value))

/-- The expression that opens a connection to a tool server. -/
def connection (s : ServerSettings) : String :=
  let overHttp (callee : String) : String :=
    let url := EnvText.expression (s.url.getD "")
    if s.headers.isEmpty then callee ++ "(" ++ url ++ ")"
    else callee ++ "(" ++ url ++ ", headers=" ++ envDict s.headers ++ ")"
  match s.transport with
  | .stdio =>
    let params := ["command=" ++ EnvText.expression (s.command.getD ""),
      "args=" ++ Literal.list (s.args.map EnvText.expression)] ++
      (if s.env.isEmpty then [] else ["env=" ++ envDict s.env])
    "stdio_client(StdioServerParameters(" ++ ", ".intercalate params ++ "))"
  | .sse => overHttp "sse_client"
  | .streamableHttp => overHttp "streamablehttp_client"

def clientStmt (name : String) (s : ServerSettings) : Stmt :=
  .assign name "MCPClient" (.positional ("lambda: " ++ connection s) ::
    (s.startupTimeout.toList.map fun n => .named "startup_timeout" (toString n)))

/-- The arguments that give a hosted model its credential and its address. -/
def clientArgs (s : ModelSettings) (withHost : Bool) : String :=
  let key := s.resolvedKeyVariable?.toList.map fun name =>
    (Literal.line "api_key", EnvText.lookup name none)
  let host := if withHost then
      (s.host.bind Text.nonBlank?).toList.map fun h => (Literal.line "base_url", Literal.line h)
    else []
  Literal.dict (key ++ host)

def localHost : String := "http://localhost:11434"

def modelStmt (name : String) (s : ModelSettings) : Stmt :=
  let modelId := Literal.line s.resolvedModel
  let temperature := Literal.number s.temperature
  let maxTokens := toString s.maxTokens
  match s.provider with
  | .bedrock => .assign name "BedrockModel" ([.named "model_id" modelId,
      .named "temperature" temperature, .named "max_tokens" maxTokens] ++
      ((s.region.bind Text.nonBlank?).toList.map fun r => .named "region_name" (Literal.line r)))
  | .openAi => .assign name "OpenAIModel" [.named "client_args" (clientArgs s true),
      .named "model_id" modelId,
      .named "params" (Literal.dict [(Literal.line "temperature", temperature),
        (Literal.line "max_tokens", maxTokens)])]
  | .anthropic => .assign name "AnthropicModel" [.named "client_args" (clientArgs s false),
      .named "model_id" modelId, .named "max_tokens" maxTokens,
      .named "params" (Literal.dict [(Literal.line "temperature", temperature)])]
  | .ollama => .assign name "OllamaModel" [
      .named "host" (Literal.line ((s.host.bind Text.nonBlank?).getD localHost)),
      .named "model_id" modelId, .named "temperature" temperature, .named "max_tokens" maxTokens]

def agentStmt (name ident modelName systemPrompt : String) (tools : List ToolEntry)
    (description : Option String) : Stmt :=
  .assign name "Agent" ([.named "name" (Literal.line ident), .named "model" modelName] ++
    (if systemPrompt.isEmpty then [] else [.named "system_prompt" (Literal.text systemPrompt)]) ++
    (if tools.isEmpty then []
      else [.named "tools" (Literal.list (tools.map ToolEntry.expression))]) ++
    ((description.bind Text.trimmed?).toList.map fun d => .named "description" (Literal.line d)) ++
    [.named "callback_handler" "None"])

def swarmStmt (name : String) (members : List String) (entry : Option String)
    (s : SwarmSettings) : Stmt :=
  .assign name "Swarm" (.positional (Literal.list members) ::
    (entry.toList.map fun e => .named "entry_point" e) ++ [
    .named "max_handoffs" (toString s.maxHandoffs),
    .named "max_iterations" (toString s.maxIterations),
    .named "execution_timeout" (Literal.number s.executionTimeout),
    .named "node_timeout" (Literal.number s.nodeTimeout),
    .named "repetitive_handoff_detection_window" (toString s.repetitionWindow),
    .named "repetitive_handoff_min_unique_agents" (toString s.repetitionMinAgents)])

def limitStmt (builder : String) : Limit → Stmt
  | .executionTimeout t =>
    .call none (builder ++ ".set_execution_timeout") [.positional (Literal.number t)]
  | .nodeTimeout t => .call none (builder ++ ".set_node_timeout") [.positional (Literal.number t)]
  | .maxNodeExecutions n =>
    .call none (builder ++ ".set_max_node_executions") [.positional (toString n)]
  | .resetOnRevisit => .call none (builder ++ ".reset_on_revisit") [.positional "True"]

/-- What a finished run tells the order of its steps by. -/
def history : Execution → String
  | .swarm => "node_history"
  | _ => "execution_order"

/-- The statements that run a wrapped node on the query. -/
def answerStmts (execution : Execution) (name : String) : List Stmt :=
  match execution with
  | .streaming | .blocking =>
    [.line ("response = " ++ name ++ "(query)"), .line "return str(response)"]
  | .swarm | .graph =>
    [.line ("result = " ++ name ++ "(query)"),
      .block ("if not result." ++ history execution) [.line "return str(result.status)"],
      .line ("last = result." ++ history execution ++ "[-1].node_id"),
      .line "return str(result.results[last].result)"]

/-- The statements that run the root on the prompt. -/
def driveStmts (execution : Execution) (name : String) : List Stmt :=
  match execution with
  | .streaming =>
    [.block ("async for event in " ++ name ++ ".stream_async(prompt)")
      [.block "if \"data\" in event" [.line "print(event[\"data\"], end=\"\", flush=True)"]],
      .line "print()"]
  | .blocking =>
    [.line ("response = " ++ name ++ "(prompt)"), .line "print(response)", .line "return response"]
  | .swarm | .graph =>
    [.line ("result = " ++ name ++ "(prompt)"),
      .line "print(f\"Status: \x7bresult.status\x7d\")",
      .line ("print(\"Execution order: \" + \" -> \".join(node.node_id for node in result." ++
        history execution ++ "))"),
      .block "for node_id, node_result in result.results.items()"
        [.line "print(f\"\\n[\x7bnode_id\x7d]\")", .line "print(node_result.result)"],
      .line "return result"]

mutual

def stmts : Code → List Stmt
  | .plain stmt => [stmt]
  | .model name settings => [modelStmt name settings]
  | .agent name ident modelName systemPrompt tools description =>
    [agentStmt name ident modelName systemPrompt tools description]
  | .swarm name members entry settings => [swarmStmt name members entry settings]
  | .newBuilder builder => [.line (builder ++ " = GraphBuilder()")]
  | .addNode builder member id =>
    [.call none (builder ++ ".add_node") [.positional member, .positional (Literal.line id)]]
  | .addEdge builder source target =>
    [.call none (builder ++ ".add_edge")
      [.positional (Literal.line source), .positional (Literal.line target)]]
  | .entryPoint builder id =>
    [.call none (builder ++ ".set_entry_point") [.positional (Literal.line id)]]
  | .limit builder bound => [limitStmt builder bound]
  | .build name builder => [.line (name ++ " = " ++ builder ++ ".build()")]
  | .client name settings => [clientStmt name settings]
  | .definition _ code => [.line code]
  | .decorate function => [.line (function ++ " = tool(" ++ function ++ ")")]
  | .toolFunction name description body =>
    [.line "@tool", .block ("def " ++ name ++ "(query: str) -> str")
      (.line (Literal.docstring description) :: stmtsAll body)]
  | .withClients clients body =>
    [.block ("with " ++ ", ".intercalate clients) (stmtsAll body)]
  | .answer execution name => answerStmts execution name
  | .drive execution name => driveStmts execution name
  | .main body => [.block "async def main(user_input=None, messages=None)" (stmtsAll body)]

def stmtsAll : List Code → List Stmt
  | [] => []
  | code :: rest => stmts code ++ stmtsAll rest

end

def render (code : List Code) : String :=
  Stmt.render (stmtsAll code)

end Code

end AgentWorkflow
