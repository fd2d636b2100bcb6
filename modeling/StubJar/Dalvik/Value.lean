import StubJar.Dalvik.Reference

/-!
# Constant values

The values of annotation elements and the initial values of static fields.
Floating-point values are their bits, so that every NaN is kept as it is.
-/

namespace StubJar.Dalvik

/-- A constant. -/
inductive Value where
  | byte (v : Int8)
  | short (v : Int16)
  | char (unit : UInt16)
  | int (v : Int32)
  | long (v : Int64)
  | float (bits : UInt32)
  | double (bits : UInt64)
  | methodType (p : Prototype)
  | methodHandle (h : MethodHandle)
  | string (s : String)
  | type (d : Descriptor)
  | field (f : FieldRef)
  | method (m : MethodRef)
  /-- The constant of an enumeration, named by its field. -/
  | enum (f : FieldRef)
  | array (items : List Value)
  /-- An annotation as a value. -/
  | nested (type : Descriptor) (elements : List (String × Value))
  | null
  | boolean (b : Bool)
deriving Inhabited

/-- What a static field of a type holds when nothing else is said. -/
def Value.default (d : Descriptor) : Value :=
  match d.text with
  | "Z" => boolean false
  | "B" => byte 0
  | "S" => short 0
  | "C" => char 0
  | "I" => int 0
  | "J" => long 0
  | "F" => float 0
  | "D" => double 0
  | _ => null

/-- Who gets to see an annotation. -/
inductive Visibility where
  /-- Tools that work on compiled code. -/
  | build
  /-- The running program. -/
  | runtime
  /-- The virtual machine. -/
  | system
deriving DecidableEq, Repr

namespace Visibility

/-- Every visibility, in the order of the codes. -/
def all : List Visibility := [build, runtime, system]

/-- The code that stands for the visibility. -/
def code : Visibility → Nat
  | build => 0
  | runtime => 1
  | system => 2

/-- The visibility that a code stands for. -/
def ofCode? (code : Nat) : Option Visibility := all[code]?

end Visibility

/-- An annotation on a class, a member or a parameter. -/
structure Annotation where
  visibility : Visibility
  type : Descriptor
  elements : List (String × Value)

/-- The value of the first element of a name. -/
def Annotation.element? (a : Annotation) (name : String) : Option Value := a.elements.lookup name

end StubJar.Dalvik
