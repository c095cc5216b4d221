import AgentWorkflow.Number.Binary64

/-!
JSON values.

An object is the list of its entries in the order of the text, repeated keys included; `sorted` gives
the value as a map from keys, ordered, in which the last of several equal keys wins.
-/

namespace AgentWorkflow

/-- A number of a document: an integer of 64 bits, or a floating point number. -/
inductive Json.Number where
  | natural (n : Nat)
  | negative (n : Nat)
  | float (x : Binary64)
  deriving DecidableEq, Repr

/-- A value without parts. -/
inductive Json.Scalar where
  | null
  | bool (b : Bool)
  | number (n : Number)
  | string (s : String)
  deriving DecidableEq, Repr

inductive Json where
  | scalar (s : Json.Scalar)
  | array (items : List Json)
  | object (entries : List (String × Json))
  deriving Repr

namespace Json

def null : Json := .scalar .null

def bool (b : Bool) : Json := .scalar (.bool b)

def string (s : String) : Json := .scalar (.string s)

/-- A natural number below `2 ^ 64`. -/
def natural (n : Nat) : Json := .scalar (.number (.natural n))

def float (x : Binary64) : Json := .scalar (.number (.float x))

/-- Puts an entry into an ordered map; an entry of the same key is replaced. -/
def insert (key : String) (value : Json) : List (String × Json) → List (String × Json)
  | [] => [(key, value)]
  | (k, v) :: rest =>
    if key = k then (key, value) :: rest
    else if key < k then (key, value) :: (k, v) :: rest
    else (k, v) :: insert key value rest

/-- The ordered map of entries; the last of several entries with one key wins. -/
def orderedMap (entries : List (String × Json)) : List (String × Json) :=
  entries.foldl (fun map entry => insert entry.1 entry.2 map) []

mutual

/-- The value with the entries of all its objects ordered by key, one for each key. -/
def sorted : Json → Json
  | .scalar s => .scalar s
  | .array items => .array (sortedItems items)
  | .object entries => .object (orderedMap (sortedEntries entries))

def sortedItems : List Json → List Json
  | [] => []
  | item :: rest => sorted item :: sortedItems rest

def sortedEntries : List (String × Json) → List (String × Json)
  | [] => []
  | (key, value) :: rest => (key, sorted value) :: sortedEntries rest

end

/-- The value of a key in an object, the first one when there are several. -/
def get? (key : String) : Json → Option Json
  | .object entries => (entries.find? (·.1 == key)).map (·.2)
  | _ => none

def text? : Json → Option String
  | .scalar (.string s) => some s
  | _ => none

def isNull : Json → Bool
  | .scalar .null => true
  | _ => false

end Json

end AgentWorkflow
