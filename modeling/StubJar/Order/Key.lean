/-!
# Order by keys

A key is a list of numbers, compared from the left; a shorter key comes
before the keys it begins. `sortOn` is stable: items of one key stay in the
order they came in.
-/

namespace StubJar.Order

/-- What items are ordered by. -/
abbrev Key := List Nat

/-- Whether `k` comes no later than `l`. -/
def keyLE : (k l : Key) → Bool
  | [], _ => true
  | _ :: _, [] => false
  | a :: k, b :: l => a < b || (a == b && keyLE k l)

/-- The items in ascending order of their keys; each key is computed once. -/
def sortOn {α : Type} (key : α → Key) (items : List α) : List α :=
  ((items.map fun a => (key a, a)).mergeSort fun x y => keyLE x.1 y.1).map Prod.snd

end StubJar.Order
