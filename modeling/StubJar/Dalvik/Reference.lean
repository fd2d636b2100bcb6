import StubJar.Dalvik.Descriptor

/-!
# References to members

A field or a method is referred to by its class, its name and its type. A
method handle adds what is to be done with the member.
-/

namespace StubJar.Dalvik

/-- A field of a class. -/
structure FieldRef where
  owner : Descriptor
  name : String
  type : Descriptor
deriving DecidableEq, Hashable, Repr, Inhabited

/-- A method of a class. -/
structure MethodRef where
  owner : Descriptor
  name : String
  prototype : Prototype
deriving DecidableEq, Hashable, Repr, Inhabited

/-- The written form `class->name:type`. -/
def FieldRef.render (f : FieldRef) : String := f.owner.text ++ "->" ++ f.name ++ ":" ++ f.type.text

/-- The written form `class->name(parameters)result`. -/
def MethodRef.render (m : MethodRef) : String :=
  m.owner.text ++ "->" ++ m.name ++ m.prototype.render

/-- What a method handle does with its member. -/
inductive HandleKind where
  | staticPut
  | staticGet
  | instancePut
  | instanceGet
  | invokeStatic
  | invokeInstance
  | invokeConstructor
  | invokeDirect
  | invokeInterface
deriving DecidableEq, Hashable, Repr

namespace HandleKind

/-- Every kind, in the order of the codes. -/
def all : List HandleKind :=
  [staticPut, staticGet, instancePut, instanceGet, invokeStatic, invokeInstance,
    invokeConstructor, invokeDirect, invokeInterface]

/-- The code that stands for the kind. -/
def code : HandleKind → Nat
  | staticPut => 0
  | staticGet => 1
  | instancePut => 2
  | instanceGet => 3
  | invokeStatic => 4
  | invokeInstance => 5
  | invokeConstructor => 6
  | invokeDirect => 7
  | invokeInterface => 8

/-- The kind that a code stands for. -/
def ofCode? (code : Nat) : Option HandleKind := all[code]?

/-- Whether the member is a field; it is a method otherwise. -/
def isFieldAccessor : HandleKind → Bool
  | staticPut | staticGet | instancePut | instanceGet => true
  | _ => false

end HandleKind

/-- The member that a method handle is about. -/
inductive HandleMember where
  | field (f : FieldRef)
  | method (m : MethodRef)
deriving DecidableEq, Hashable, Repr

/-- A member, and what is to be done with it. -/
structure MethodHandle where
  kind : HandleKind
  member : HandleMember
deriving DecidableEq, Hashable, Repr

end StubJar.Dalvik
