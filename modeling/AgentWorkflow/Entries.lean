/-!
Lists of keys with values that keep the order in which keys came first.
-/

namespace AgentWorkflow.Entries

variable {κ β : Type} [DecidableEq κ]

/-- Sets the value of a key; a key that is there keeps its place. -/
def put (key : κ) (value : β) : List (κ × β) → List (κ × β)
  | [] => [(key, value)]
  | (k, v) :: rest => if key = k then (key, value) :: rest else (k, v) :: put key value rest

def get? (key : κ) : List (κ × β) → Option β
  | [] => none
  | (k, v) :: rest => if key = k then some v else get? key rest

def erase (key : κ) : List (κ × β) → List (κ × β)
  | [] => []
  | (k, v) :: rest => if key = k then rest else (k, v) :: erase key rest

@[simp]
theorem get?_put (key k : κ) (value : β) (entries : List (κ × β)) :
    get? k (put key value entries) = if k = key then some value else get? k entries := by
  induction entries with
  | nil => rfl
  | cons e rest ih =>
    by_cases he : key = e.1 <;> by_cases hk : k = key <;> grind [put, get?]

end AgentWorkflow.Entries
