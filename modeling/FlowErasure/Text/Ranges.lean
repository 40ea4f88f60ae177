/-!
# Sets of code points given by ranges
-/

namespace FlowErasure.Text

/-- A set of code points, as inclusive ranges in ascending order. -/
abbrev Ranges := List (Nat × Nat)

/-- Whether a character lies in one of the ranges; the search stops at the first range beyond it. -/
def Ranges.contains : Ranges → Char → Bool
  | [], _ => false
  | (first, last) :: rest, c =>
    if c.toNat < first then false else c.toNat ≤ last || Ranges.contains rest c

end FlowErasure.Text
