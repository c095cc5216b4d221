/-!
Sets of characters given by ranges of code points.
-/

namespace AgentWorkflow.Text

/-- A set of characters: the code points between the ends of some pair, both included. -/
abbrev CodeRanges := List (Nat × Nat)

/-- Membership in a set given by ranges. -/
def CodeRanges.has (ranges : CodeRanges) (c : Char) : Bool :=
  ranges.any fun (first, last) => first ≤ c.toNat && c.toNat ≤ last

end AgentWorkflow.Text
