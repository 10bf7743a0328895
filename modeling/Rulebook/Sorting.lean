/-!
# Sorting

Stable sorting by insertion.  Elements that come before each other keep the
order in which they were given.
-/

namespace Rulebook
namespace Sorting

variable {α : Type}

/-- Insert an element in front of the first one it may stand before. -/
def insert (before : α → α → Bool) (a : α) : List α → List α
  | [] => [a]
  | b :: rest => if before a b then a :: b :: rest else b :: insert before a rest

/-- Sort a list. -/
def sort (before : α → α → Bool) : List α → List α
  | [] => []
  | a :: rest => insert before a (sort before rest)

end Sorting
end Rulebook
