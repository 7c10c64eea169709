/-! # Stable sorting

Sorting by insertion from the right: elements that compare equal keep their order.
-/

namespace SourceLayout

variable {α : Type}

/-- Inserts before the first element that is not smaller. -/
def insertInto (le : α → α → Bool) (a : α) : List α → List α
  | [] => [a]
  | b :: bs => if le a b then a :: b :: bs else b :: insertInto le a bs

def stableSort (le : α → α → Bool) : List α → List α
  | [] => []
  | a :: as => insertInto le a (stableSort le as)

end SourceLayout
