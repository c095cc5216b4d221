import AgentWorkflow.Text.WordTable

/-!
Word characters and the words they bound.
-/

namespace AgentWorkflow.Text

/-- A character that continues a word: a letter, mark, digit or connector of any script. -/
def isWordChar (c : Char) : Bool :=
  if c.toNat < 128 then c.isAlphanum || c == '_' else wordRanges.has c

/-- A text that does not continue a word standing before it. -/
def endsWord : List Char → Bool
  | [] => true
  | c :: _ => !isWordChar c

/-- The rest of a text after a literal head. -/
def afterHead? : (head text : List Char) → Option (List Char)
  | [], rest => some rest
  | _ :: _, [] => none
  | h :: head, c :: text => if h = c then afterHead? head text else none

end AgentWorkflow.Text
