import AgentWorkflow.Main
import AgentWorkflow.Proofs.Tools.Closure
import AgentWorkflow.Proofs.Naming.SymbolTable
import AgentWorkflow.Proofs.Compile.Blueprint
import AgentWorkflow.Proofs.Compile.Content
import AgentWorkflow.Proofs.Compile.Draft
import AgentWorkflow.Proofs.Compile.Demand
import AgentWorkflow.Proofs.Compile.Ledger
import AgentWorkflow.Proofs.Compile.Delivery
import AgentWorkflow.Proofs.Compile.Expansion
import AgentWorkflow.Proofs.Compile.Agenda
import AgentWorkflow.Proofs.Compile.Generation
import AgentWorkflow.Proofs.Compile.Success
import AgentWorkflow.Proofs.Program.Clients
import AgentWorkflow.Proofs.Compile.OpenClients
import AgentWorkflow.Proofs.Program.Scope
import AgentWorkflow.Proofs.Compile.Names
import AgentWorkflow.Proofs.Compile.WellScoped
import AgentWorkflow.Proofs.Compile.Forest
import AgentWorkflow.Proofs.Compile.Accounts
import AgentWorkflow.Proofs.Program.Imports
import AgentWorkflow.Proofs.Compile.Features
import AgentWorkflow.Proofs.Compile.ImportedNames
import AgentWorkflow.Proofs.Program.Pieces
import AgentWorkflow.Proofs.Program.Literals
import AgentWorkflow.Proofs.Program.Words
import AgentWorkflow.Proofs.Program.Reads
import AgentWorkflow.Proofs.Program.Substitution
import AgentWorkflow.Proofs.Program.Rows
import AgentWorkflow.Proofs.Program.Usage
import AgentWorkflow.Proofs.Compile.Recorded
import AgentWorkflow.Proofs.Compile.OwnNames
import AgentWorkflow.Proofs.Compile.ExactImports
import AgentWorkflow.Proofs.Compile.Pieces
import AgentWorkflow.Proofs.Tools.Toolbox
import AgentWorkflow.Proofs.Compile.Listing
import AgentWorkflow.Proofs.Compile.Attachments
import AgentWorkflow.Proofs.Compile.Emissions
import AgentWorkflow.Proofs.Compile.ToolNames
import AgentWorkflow.Proofs.Program.Occurrence
import AgentWorkflow.Proofs.Compile.Preservation
import AgentWorkflow.Proofs.Compile.Printed
import AgentWorkflow.Proofs.Compile.Declaration
import AgentWorkflow.Proofs.Compile.Requests
import AgentWorkflow.Proofs.Program.PerCall
import AgentWorkflow.Proofs.Compile.PerCall
import AgentWorkflow.Proofs.Graph.Rings
import AgentWorkflow.Proofs.Graph.Walk
import AgentWorkflow.Proofs.Graph.ClosingArcs
import AgentWorkflow.Proofs.Graph.Cycles
import AgentWorkflow.Proofs.Graph.Validity
import AgentWorkflow.Proofs.Graph.IllTyped
import AgentWorkflow.Proofs.Graph.Adjacency
import AgentWorkflow.Proofs.Graph.Reachability
import AgentWorkflow.Proofs.Tools.FirstUse
import AgentWorkflow.Proofs.Compile.DataFlow
import AgentWorkflow.Proofs.Compile.EntryPoints
import AgentWorkflow.Proofs.Compile.RootSelection
import AgentWorkflow.Proofs.Compile.FallbackPrompt
import AgentWorkflow.Proofs.Compile.LinkedEdges
import AgentWorkflow.Proofs.Program.Builders
import AgentWorkflow.Proofs.Compile.DependencyGraphs
import AgentWorkflow.Proofs.Json.Scanner
import AgentWorkflow.Proofs.Json.Spelling
import AgentWorkflow.Proofs.Json.Printing
import AgentWorkflow.Proofs.Json.Restoring
import AgentWorkflow.Proofs.Graph.RoundTrip
import AgentWorkflow.Proofs.Json.Tree
import AgentWorkflow.Proofs.Json.Records
import AgentWorkflow.Proofs.Canvas.Document
import AgentWorkflow.Proofs.Naming.FixedPoints
import AgentWorkflow.Proofs.Tools.Decorators
import AgentWorkflow.Proofs.Compile.Unfolding
import AgentWorkflow.Proofs.Compile.ToolOrder
import AgentWorkflow.Proofs.Compile.Definitions
import AgentWorkflow.Proofs.Compile.SwarmEntries
import AgentWorkflow.Proofs.Text.Lines
import AgentWorkflow.Proofs.Tools.Margin
