import AgentWorkflow.Graph.Settings
import AgentWorkflow.Program.Stmt

/-!
The import block of the generated program: a fixed beginning, and a name for each feature in use.
-/

namespace AgentWorkflow

/-- Something that a program uses and therefore imports. -/
inductive Feature where
  | os
  | agent
  | tool
  | swarm
  | graphBuilder
  | client
  | model (provider : Provider)
  | transport (transport : Transport)
  | builtin (symbol : String)
  deriving DecidableEq, Repr

/-- The features in use, in the order in which they came into use. -/
structure Imports where
  features : List Feature
  deriving DecidableEq, Repr

namespace Imports

def empty : Imports := ⟨[]⟩

def use (imports : Imports) (f : Feature) : Imports :=
  if imports.features.contains f then imports else ⟨imports.features ++ [f]⟩

def useAll (imports : Imports) (fs : List Feature) : Imports :=
  fs.foldl use imports

def has (imports : Imports) (f : Feature) : Bool :=
  imports.features.contains f

/-- The names of those features that are in use. -/
def names (imports : Imports) (fs : List (String × Feature)) : List String :=
  (fs.filter fun (_, f) => imports.has f).map (·.1)

/-- The import of names from a module, if there are any. -/
def importFrom (module : String) (names : List String) : List String :=
  if names.isEmpty then [] else ["from " ++ module ++ " import " ++ ", ".intercalate names]

/-- Puts a symbol into an ordered list of symbols. -/
def insertSymbol (symbol : String) : List String → List String
  | [] => [symbol]
  | s :: rest =>
    if symbol = s then s :: rest
    else if symbol < s then symbol :: s :: rest
    else s :: insertSymbol symbol rest

/-- The built-in tools in use, in alphabetical order. -/
def builtins (imports : Imports) : List String :=
  imports.features.foldr (fun f symbols =>
    match f with
    | .builtin symbol => insertSymbol symbol symbols
    | _ => symbols) []

def modelLine : Provider → String
  | .bedrock => "from strands.models import BedrockModel"
  | .anthropic => "from strands.models.anthropic import AnthropicModel"
  | .ollama => "from strands.models.ollama import OllamaModel"
  | .openAi => "from strands.models.openai import OpenAIModel"

def transportLine : Transport → String
  | .stdio => "from mcp import StdioServerParameters, stdio_client"
  | .sse => "from mcp.client.sse import sse_client"
  | .streamableHttp => "from mcp.client.streamable_http import streamablehttp_client"

def lines (imports : Imports) : List String :=
  ["import argparse", "import asyncio", "import json"] ++
    (if imports.has .os then ["import os"] else []) ++
    importFrom "strands" (imports.names [("Agent", .agent), ("tool", .tool)]) ++
    ([.bedrock, .anthropic, .ollama, .openAi].filter fun p => imports.has (.model p)).map modelLine ++
    importFrom "strands.multiagent"
      (imports.names [("GraphBuilder", .graphBuilder), ("Swarm", .swarm)]) ++
    (if imports.has .client then ["from strands.tools.mcp import MCPClient"] else []) ++
    importFrom "strands_tools" imports.builtins ++
    ([.stdio, .sse, .streamableHttp].filter fun t => imports.has (.transport t)).map transportLine

def isWhole (line : String) : Bool :=
  !"from ".toList.isPrefixOf line.toList

/-- The import block: an empty line stands before the first import of single names. -/
def stmts (imports : Imports) : List Stmt :=
  let whole := imports.lines.takeWhile isWhole
  let single := imports.lines.dropWhile isWhole
  whole.map .line ++ (if single.isEmpty then [] else [.blank]) ++ single.map .line

end Imports

end AgentWorkflow
