import Std.Data.HashMap
import Std.Data.HashSet
import StubJar.Order.Key

/-!
# Sorted tables

A table lists distinct items in ascending order of a key and finds the
position of an item. It is what an index in a container points into.
-/

namespace StubJar.Order

variable {α : Type} [BEq α] [Hashable α]

/-- The items not yet `seen`, the first of each, behind those already `found`
(kept in reverse). -/
def distinctFrom (seen : Std.HashSet α) (found : List α) : List α → List α
  | [] => found.reverse
  | a :: items =>
    if seen.contains a then distinctFrom seen found items
    else distinctFrom (seen.insert a) (a :: found) items

/-- The items without repetitions, the first of each kept. -/
def distinct (items : List α) : List α := distinctFrom {} [] items

/-- The position of each item; of equal items the last one counts. -/
def positions (items : List α) : Std.HashMap α Nat :=
  items.zipIdx.foldl (fun found (a, i) => found.insert a i) {}

/-- Distinct items in ascending order, with the position of each. -/
structure Table (α : Type) [BEq α] [Hashable α] where
  items : List α
  index : Std.HashMap α Nat

namespace Table

/-- The table of the given items under a key. -/
def ofItems (key : α → Key) (items : List α) : Table α :=
  let sorted := sortOn key (distinct items)
  ⟨sorted, positions sorted⟩

/-- How many items there are. -/
def size (t : Table α) : Nat := t.items.length

/-- The position of an item, if the table holds it. -/
def index? (t : Table α) (a : α) : Option Nat := t.index[a]?

/-- The position of an item that the table is known to hold. -/
def indexOf (t : Table α) (a : α) : Nat := (t.index? a).getD 0

end Table

end StubJar.Order
