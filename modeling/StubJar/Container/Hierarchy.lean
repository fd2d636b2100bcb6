import Std.Data.HashMap
import StubJar.Container.Fault
import StubJar.Dalvik.File

/-!
# The order of classes

In a container a class stands behind the superclass and the interfaces that
the same file defines. `Hierarchy.order` visits the classes in the order in
which they are listed and puts the parents of each in front of it; where the
listing is in order already, nothing moves. It fails exactly when a class is
reached again before it is finished.
-/

namespace StubJar.Container.Hierarchy

open StubJar.Dalvik

/-- How far the visit of a class has come. -/
inductive Mark where
  | untouched
  | entered
  | finished
deriving DecidableEq, Repr, Inhabited

/-- The marks of all classes, and the finished ones, the last in front. -/
structure State where
  marks : Array Mark
  done : List Nat

/-- The mark of a class. -/
def State.mark (s : State) (i : Nat) : Mark := s.marks.getD i .finished

/-- Starts the visit of a class. -/
def State.enter (s : State) (i : Nat) : State :=
  { s with marks := s.marks.setIfInBounds i .entered }

/-- Ends the visit of a class. -/
def State.finish (s : State) (i : Nat) : State :=
  ⟨s.marks.setIfInBounds i .finished, i :: s.done⟩

/-- Visits a class behind its parents. The classes entered and not finished
are distinct, so their number bounds the depth of the visit; a class that is
met again while it is among them is the fault. -/
def visit (parents : Nat → List Nat) : (fuel : Nat) → State → Nat → Except Nat State
  | 0, _, i => .error i
  | fuel + 1, s, i =>
    match s.mark i with
    | .finished => .ok s
    | .entered => .error i
    | .untouched => do
      let s ← (parents i).foldlM (visit parents fuel) (s.enter i)
      return s.finish i

/-- The numbers below `n`, each behind its parents, or one that is its own
ancestor. -/
def sorted (n : Nat) (parents : Nat → List Nat) : Except Nat (List Nat) := do
  let s ← (List.range n).foldlM (visit parents (n + 1)) ⟨Array.replicate n .untouched, []⟩
  return s.done.reverse

/-- The position of the last class of each type. -/
def lastOfType (classes : List ClassDecl) : Std.HashMap Descriptor Nat :=
  classes.zipIdx.foldl (fun found (c, i) => found.insert c.type i) {}

/-- The positions of the parents of each class, as far as the list defines
them. -/
def parentTable (classes : List ClassDecl) : Array (List Nat) :=
  let found := lastOfType classes
  (classes.map fun c => c.parents.filterMap (found[·]?)).toArray

/-- The positions of the classes, each behind those of its parents. -/
def order (classes : List ClassDecl) : Except EncodeFault (List Nat) :=
  let parents := parentTable classes
  match sorted classes.length (parents.getD · []) with
  | .ok positions => .ok positions
  | .error i => .error (.cyclicHierarchy (classes[i]?.elim "" (·.type.text)))

end StubJar.Container.Hierarchy
