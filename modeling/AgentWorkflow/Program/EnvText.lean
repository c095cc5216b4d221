import AgentWorkflow.Program.Literal

/-!
Texts that refer to the environment of a run.

In a setting, a dollar sign and a name in braces stands for the value of an environment variable. Such
a text becomes an expression that looks the variables up when the program runs; `pieces` splits it
into what stands for itself and the names of variables.
-/

namespace AgentWorkflow.EnvText

/-- A part of a text: characters that stand for themselves, or the name of a variable. -/
inductive Piece where
  | plain (cs : List Char)
  | variable (name : List Char)
  deriving DecidableEq, Repr

/-- A character that a variable's name can start with. -/
def startsName (c : Char) : Bool :=
  c.isAlpha || c == '_'

/-- A character that a variable's name can go on with. -/
def continuesName (c : Char) : Bool :=
  c.isAlphanum || c == '_'

/-- The name of a reference that the text starts with. -/
def reference? : List Char → Option (List Char)
  | '$' :: '\x7b' :: c :: rest =>
    let name := c :: rest.takeWhile continuesName
    if startsName c && (rest.dropWhile continuesName).head? == some '\x7d' then some name else none
  | _ => none

def push (c : Char) : List Piece → List Piece
  | .plain cs :: rest => .plain (c :: cs) :: rest
  | pieces => .plain [c] :: pieces

/-- The pieces of a text of which some characters belong to a reference already found. -/
def piecesFrom : Nat → List Char → List Piece
  | _, [] => []
  | n + 1, _ :: rest => piecesFrom n rest
  | 0, c :: rest =>
    match reference? (c :: rest) with
    | some name => .variable name :: piecesFrom (name.length + 2) rest
    | none => push c (piecesFrom 0 rest)

/-- The pieces of a text: its references from the left, and what stands between them. -/
def pieces (cs : List Char) : List Piece :=
  piecesFrom 0 cs

def Piece.isVariable : Piece → Bool
  | .variable _ => true
  | .plain _ => false

def hasReference (s : String) : Bool :=
  (pieces s.toList).any Piece.isVariable

/-- The expression that looks a variable up, with the value for one that is not set. -/
def lookup (name : String) (default : Option String) : String :=
  match default with
  | some d => "os.environ.get(" ++ Literal.line name ++ ", " ++ Literal.line d ++ ")"
  | none => "os.environ.get(" ++ Literal.line name ++ ")"

def Piece.expression : Piece → String
  | .plain cs => Literal.line (.ofList cs)
  | .variable name => lookup (.ofList name) (some "")

def expression (s : String) : String :=
  match pieces s.toList with
  | [] => Literal.line ""
  | pieces => " + ".intercalate (pieces.map Piece.expression)

end AgentWorkflow.EnvText
