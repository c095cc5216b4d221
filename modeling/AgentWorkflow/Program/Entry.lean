import AgentWorkflow.Program.Fragment

/-!
The entry function of a generated program, and the whole program.

The entry function chooses the prompt, opens the servers that the run needs, and drives the root. A
program is its import block and its fragments, of which the entry function is the last.
-/

namespace AgentWorkflow

/-- The choice of the prompt: the history, else what the user typed, else the default. -/
def promptChoice (default : String) : List Code :=
  [.plain (.block "if messages" [.line "prompt = messages"]),
    .plain (.block "elif user_input" [.line "prompt = user_input"]),
    .plain (.block "else" [.line ("prompt = " ++ Literal.text default)])]

def commandLine : Code :=
  .plain (.block "if __name__ == \"__main__\"" [
    .line "parser = argparse.ArgumentParser(description=\"Run the generated workflow.\")",
    .line "parser.add_argument(\"--user-input\", default=None, help=\"Prompt sent to the workflow\")",
    .line ("parser.add_argument(\"--messages\", default=None, " ++
      "help=\"Conversation history as a JSON list\")"),
    .line "args = parser.parse_args()",
    .line "history = json.loads(args.messages) if args.messages else None",
    .line "asyncio.run(main(user_input=args.user_input, messages=history))"])

/-- What the entry function needs to know. -/
structure Entry where
  /-- The variable of the root, and how the root runs. -/
  root : String
  execution : Execution
  prompt : String
  /-- The clients that are open during the run. -/
  clients : List String
  /-- The fragments that must stand where the clients are open. -/
  inside : List Fragment

/-- The run of the root, with its clients opened around it. -/
def Entry.run (e : Entry) : List Code :=
  let drive : List Code := [.drive e.execution e.root]
  if e.clients.isEmpty then drive
  else [.withClients e.clients (Fragment.joinBlank (Fragment.layout e.inside) drive)]

/-- The entry function with the call that starts it. -/
def Entry.fragment (e : Entry) : Fragment where
  kind := .entry
  node := none
  code := [
    .main (.line (Literal.docstring "Run the workflow once and print its result.") ::
      promptChoice e.prompt ++ .blank :: e.run),
    .blank,
    commandLine]

structure Program where
  /-- Whether it starts with a comment that says where it comes from. -/
  header : Bool
  imports : Imports
  fragments : List Fragment

namespace Program

def headerText : String :=
  "Generated by kousei from a workflow graph. Changes are overwritten on the next compile."

def code (p : Program) : List Code :=
  (if p.header then [.plain (.comment headerText), .blank] else []) ++
    p.imports.stmts.map .plain ++ .blank :: Fragment.layout p.fragments

def text (p : Program) : String :=
  Code.render p.code

end Program

end AgentWorkflow
