/-!
Blank characters, and the trimming and splitting of texts that follow from them.

Texts are handled as lists of characters; the functions on `String` wrap those on lists.
-/

namespace AgentWorkflow.Text

/-- A character with the Unicode property White_Space. -/
def isBlank (c : Char) : Bool :=
  let n := c.toNat
  (9 ≤ n && n ≤ 13) || n == 0x20 || n == 0x85 || n == 0xA0 || n == 0x1680 ||
    (0x2000 ≤ n && n ≤ 0x200A) || n == 0x2028 || n == 0x2029 || n == 0x202F || n == 0x205F ||
    n == 0x3000

/-- Drops the longest tail whose characters all satisfy `p`. -/
def dropTail (p : Char → Bool) (cs : List Char) : List Char :=
  (cs.reverse.dropWhile p).reverse

/-- Drops the longest head and the longest tail whose characters all satisfy `p`. -/
def dropEnds (p : Char → Bool) (cs : List Char) : List Char :=
  dropTail p (cs.dropWhile p)

def trim (s : String) : String :=
  .ofList (dropEnds isBlank s.toList)

def isBlankText (s : String) : Bool :=
  s.toList.all isBlank

def nonBlank? (s : String) : Option String :=
  if isBlankText s then none else some s

def trimmed? (s : String) : Option String :=
  nonBlank? (trim s)

/-- The lines of a text. A line ends at a line feed, or at a carriage return and a line feed; the
last line may lack its ending, and nothing after the last ending is no line. -/
def lines : List Char → List (List Char)
  | [] => []
  | '\n' :: rest => [] :: lines rest
  | '\r' :: '\n' :: rest => [] :: lines rest
  | c :: rest =>
    match lines rest with
    | [] => [[c]]
    | line :: more => (c :: line) :: more

/-- The pieces of a text between line feeds; one more than there are line feeds. -/
def pieces : List Char → List (List Char)
  | [] => [[]]
  | '\n' :: rest => [] :: pieces rest
  | c :: rest =>
    match pieces rest with
    | [] => [[c]]
    | piece :: more => (c :: piece) :: more

/-- Pieces joined by line feeds. -/
def unpieces : List (List Char) → List Char
  | [] => []
  | [piece] => piece
  | piece :: more => piece ++ '\n' :: unpieces more

/-- The last four characters of a text, all of it when it is shorter. -/
def lastFour (s : String) : String :=
  .ofList (s.toList.drop (s.toList.length - 4))

theorem pieces_ne_nil (cs : List Char) : pieces cs ≠ [] := by
  fun_induction pieces cs <;> simp_all

theorem unpieces_pieces (cs : List Char) : unpieces (pieces cs) = cs := by
  fun_induction pieces cs with
  | case1 => rfl
  | case2 rest ih =>
    cases h : pieces rest with
    | nil => exact absurd h (pieces_ne_nil rest)
    | cons piece more => simpa [unpieces, h] using ih
  | case3 c rest _ h _ => exact absurd h (pieces_ne_nil rest)
  | case4 c rest _ piece more h ih =>
    rw [h] at ih
    cases more <;> simpa [unpieces] using ih

end AgentWorkflow.Text
