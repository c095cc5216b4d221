/-!
Messages collected while something is done, errors apart from warnings.
-/

namespace AgentWorkflow

/-- Messages in the order in which they came. -/
structure Diagnostics where
  errors : List String
  warnings : List String
  deriving DecidableEq, Repr

namespace Diagnostics

def empty : Diagnostics := ⟨[], []⟩

def error (d : Diagnostics) (message : String) : Diagnostics :=
  { d with errors := d.errors ++ [message] }

def warn (d : Diagnostics) (message : String) : Diagnostics :=
  { d with warnings := d.warnings ++ [message] }

def append (d more : Diagnostics) : Diagnostics :=
  ⟨d.errors ++ more.errors, d.warnings ++ more.warnings⟩

def hasErrors (d : Diagnostics) : Bool :=
  !d.errors.isEmpty

end Diagnostics

end AgentWorkflow
