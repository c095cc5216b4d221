import AgentWorkflow.Text.Blank

/-!
Statements of the generated program, as far as their layout goes. The expressions in them are texts.
-/

namespace AgentWorkflow

/-- An argument of a call; one without a name goes by its place. -/
structure Arg where
  name : Option String
  value : String
  deriving DecidableEq, Repr

namespace Arg

def positional (value : String) : Arg := ⟨none, value⟩

def named (name value : String) : Arg := ⟨some name, value⟩

def render (a : Arg) : String :=
  match a.name with
  | some name => name ++ "=" ++ a.value
  | none => a.value

end Arg

/-- A statement: a line, an empty line, a comment, a header with an indented body, or a call whose
result may be assigned. -/
inductive Stmt where
  | line (text : String)
  | blank
  | comment (text : String)
  | block (header : String) (body : List Stmt)
  | call (target : Option String) (callee : String) (args : List Arg)
  deriving Repr

namespace Stmt

def assign (target callee : String) (args : List Arg) : Stmt :=
  .call (some target) callee args

/-- A statement that does nothing when the program runs. -/
def isSilent : Stmt → Bool
  | .blank | .comment _ => true
  | _ => false

end Stmt

end AgentWorkflow
