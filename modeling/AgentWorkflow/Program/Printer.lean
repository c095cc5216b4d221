import AgentWorkflow.Program.Stmt

/-!
The text of statements.

Each level of nesting indents by four spaces. A call stands on one line if it fits into the width, and
else has a line for each argument. There is never more than one empty line in a row, none at the start
and none after a header.
-/

namespace AgentWorkflow

/-- Printed text, its last character first. -/
abbrev Page := List Char

namespace Page

/-- The spaces of a level of nesting. -/
def indentWidth : Nat := 4

/-- The bytes that a call on one line may take. -/
def maxWidth : Nat := 88

/-- Writes a line. Only its first physical line is indented; line breaks inside it belong to literals. -/
def writeLine (depth : Nat) (page : Page) (text : List Char) : Page :=
  let indent := if text.isEmpty then 0 else depth * indentWidth
  '\n' :: (text.reverse ++ (List.replicate indent ' ' ++ page))

/-- Whether an empty line may follow. -/
def admitsBlank : Page → Bool
  | [] => false
  | '\n' :: '\n' :: _ => false
  | '\n' :: ':' :: _ => false
  | _ => true

def text (page : Page) : String :=
  .ofList page.reverse

end Page

namespace Stmt

open Page

def commentLine (line : List Char) : List Char :=
  Text.dropTail Text.isBlank ('#' :: ' ' :: line)

/-- The beginning of a call, up to its parenthesis. -/
def opening (target : Option String) (callee : String) : String :=
  match target with
  | some target => target ++ " = " ++ callee ++ "("
  | none => callee ++ "("

/-- A call on one line. -/
def flat (target : Option String) (callee : String) (args : List Arg) : String :=
  opening target callee ++ ", ".intercalate (args.map Arg.render) ++ ")"

def printCall (depth : Nat) (page : Page) (target : Option String) (callee : String)
    (args : List Arg) : Page :=
  let line := flat target callee args
  let fits := depth * indentWidth + line.utf8ByteSize ≤ maxWidth ∧ '\n' ∉ line.toList
  if args.isEmpty ∨ fits then writeLine depth page line.toList
  else
    let page := writeLine depth page (opening target callee).toList
    let page := args.foldl (fun page a => writeLine (depth + 1) page (a.render ++ ",").toList) page
    writeLine depth page [')']

mutual

def print (depth : Nat) (page : Page) : Stmt → Page
  | .line text => writeLine depth page text.toList
  | .blank => if page.admitsBlank then '\n' :: page else page
  | .comment text =>
    (Text.lines text.toList).foldl (fun page line => writeLine depth page (commentLine line)) page
  | .block header body =>
    let page := printAll (depth + 1) (writeLine depth page (header ++ ":").toList) body
    if body.all isSilent then writeLine (depth + 1) page "pass".toList else page
  | .call target callee args => printCall depth page target callee args

def printAll (depth : Nat) (page : Page) : List Stmt → Page
  | [] => page
  | stmt :: rest => printAll depth (print depth page stmt) rest

end

def render (stmts : List Stmt) : String :=
  (printAll 0 [] stmts).text

end Stmt

end AgentWorkflow
