import AgentWorkflow.Graph.Basic

/-!
What edges mean.

The kinds of its end nodes and the handles that it uses give an edge a role: it carries data, feeds an
input, attaches a tool, makes a member, or leads to an output. An edge without a role is ill-typed, or
it dangles because an end does not exist; a missing tool still counts as attached.
-/

namespace AgentWorkflow

inductive EdgeRole where
  | dataFlow
  | inputFeed
  | toolAttachment
  | membership
  | outputSink
  deriving DecidableEq, Repr

/-- Why an edge between existing nodes has no role. -/
inductive IllTyped where
  | fromOutput
  | inputToOutput
  | inputHandle (handle : Handle)
  | toolTarget
  | toolHandle (handle : Handle)
  | composition
  | agentAsTool
  | dataHandle (handle : Handle)
  | unconnectable (source target : String)
  deriving DecidableEq, Repr

def IllTyped.message : IllTyped → String
  | .fromOutput => "output nodes cannot feed other nodes"
  | .inputToOutput => "an input cannot be wired straight to an output"
  | .inputHandle h => "input nodes must feed a 'user-input' handle, not '" ++ h.name ++ "'"
  | .toolTarget => "tools can only be attached to agents"
  | .toolHandle h => "tools must feed a 'tools' handle, not '" ++ h.name ++ "'"
  | .composition => "composition must link 'sub-agents' to 'orchestrator-input'"
  | .agentAsTool => "agents cannot be used as tool nodes"
  | .dataHandle h => "agents cannot receive data on '" ++ h.name ++ "'"
  | .unconnectable source target => "a " ++ source ++ " cannot be connected to a " ++ target

/-- The role of an edge between two executables, by its handles. -/
def EdgeRole.betweenExecutables (source : NodeKind) (out into : Handle) :
    Except IllTyped EdgeRole :=
  if out = .subAgents ∧ into = .orchestratorInput ∧ source.isComposite then .ok .membership
  else if out = .subAgents ∨ into = .orchestratorInput then .error .composition
  else if out = .tools ∨ out = .toolOutput then .error .agentAsTool
  else if into = .userInput then .ok .dataFlow
  else .error (.dataHandle into)

def EdgeRole.between (source : NodeKind) (out into : Handle) (target : NodeKind) :
    Except IllTyped EdgeRole :=
  if source.isOutput then .error .fromOutput
  else if source.isInput ∧ target.isOutput then .error .inputToOutput
  else if source.isInput ∧ target.isExecutable then
    if into = .userInput then .ok .inputFeed else .error (.inputHandle into)
  else if source.isTool then
    if ¬target.isExecutable then .error .toolTarget
    else if into = .tools then .ok .toolAttachment
    else .error (.toolHandle into)
  else if source.isExecutable ∧ target.isOutput then .ok .outputSink
  else if source.isExecutable ∧ target.isExecutable then betweenExecutables source out into
  else .error (.unconnectable source.slug target.slug)

/-- What is made of an edge. -/
inductive Verdict where
  | role (role : EdgeRole)
  | illTyped (reason : IllTyped)
  /-- An end of the edge does not exist. -/
  | dangling (missing : String)
  deriving DecidableEq, Repr

namespace Verdict

def role? : Verdict → Option EdgeRole
  | .role r => some r
  | _ => none

def isIllTyped : Verdict → Bool
  | .illTyped _ => true
  | _ => false

def isDangling : Verdict → Bool
  | .dangling _ => true
  | _ => false

def reason? : Verdict → Option String
  | .role _ => none
  | .illTyped reason => some reason.message
  | .dangling missing => some ("references missing node '" ++ missing ++ "'")

end Verdict

def Graph.verdict (g : Graph) (e : Edge) : Verdict :=
  match g.node? e.source, g.node? e.target with
  | some source, some target =>
    match EdgeRole.between source.kind e.sourceHandle e.targetHandle target.kind with
    | .ok role => .role role
    | .error reason => .illTyped reason
  | none, some target =>
    if e.targetHandle = .tools ∧ target.kind.isExecutable then .role .toolAttachment
    else .dangling e.source
  | none, none => .dangling e.source
  | some _, none => .dangling e.target

end AgentWorkflow
