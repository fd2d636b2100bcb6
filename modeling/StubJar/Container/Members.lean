import StubJar.Container.Pool

/-!
# The members of a class in order

In a container the members of a class stand in four lists, each in ascending
order of its indices: static fields, instance fields, direct methods, virtual
methods. Initial values belong to the first of them only.
-/

namespace StubJar.Container

open StubJar.Dalvik StubJar.Order

/-- The members of a class with their indices. -/
structure Members where
  statics : List (Nat × Field)
  instances : List (Nat × Field)
  directs : List (Nat × Method)
  virtuals : List (Nat × Method)

namespace Members

/-- Indexed items in ascending order of their indices. -/
def byIndex {α : Type} (items : List (Nat × α)) : List (Nat × α) :=
  sortOn (fun (i, _) => [i]) items

/-- The members of a class. -/
def ofClass (p : Pool) (c : ClassDecl) : Members :=
  let fields := c.fields.map fun f => (p.field f.ref, f)
  let methods := c.methods.map fun m => (p.method m.ref, m)
  ⟨byIndex (fields.filter (·.2.isStatic)), byIndex (fields.filter (!·.2.isStatic)),
    byIndex (methods.filter (·.2.flags.isDirect)), byIndex (methods.filter (!·.2.flags.isDirect))⟩

/-- The fields, the static ones first. -/
def fields (m : Members) : List (Nat × Field) := m.statics ++ m.instances

/-- The methods, the direct ones first. -/
def methods (m : Members) : List (Nat × Method) := m.directs ++ m.virtuals

/-- Whether the class has no member. -/
def isEmpty (m : Members) : Bool := m.fields.isEmpty && m.methods.isEmpty

/-- The initial values of the static fields, up to the last that is given;
those between that are not given are the defaults of their types. -/
def initialValues (m : Members) : List Value :=
  let given := (m.statics.reverse.dropWhile (·.2.initial.isNone)).reverse
  given.map fun (_, f) => f.initial.getD (Value.default f.ref.type)

end Members

end StubJar.Container
