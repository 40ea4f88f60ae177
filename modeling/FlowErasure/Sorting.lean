/-!
# Sorting by a pair of numbers

Insertion sort by a key. Entries with equal keys keep their order, and a list that is in order
already is sorted in linear time.
-/

namespace FlowErasure

variable {α : Type}

/-- Pairs in lexicographic order. -/
def pairLe (a b : Nat × Nat) : Bool :=
  a.1 < b.1 || (a.1 == b.1 && a.2 ≤ b.2)

/-- Inserts an entry in front of the first that is not smaller. -/
def insertOn (key : α → Nat × Nat) (a : α) : List α → List α
  | [] => [a]
  | b :: bs => if pairLe (key a) (key b) then a :: b :: bs else b :: insertOn key a bs

/-- Sorts by `key`, keeping the order of entries with equal keys. -/
def sortOn (key : α → Nat × Nat) (as : List α) : List α :=
  as.foldr (insertOn key) []

end FlowErasure
