import StubJar.Dalvik.Flags
import StubJar.Dalvik.Instruction
import StubJar.Dalvik.Value

/-!
# Classes

The contents of a container with every index resolved: wherever the binary
form points into a table, these types hold the thing itself. A file can be
changed freely and written again; the tables follow from it.
-/

namespace StubJar.Dalvik

open StubJar.Text

/-- The code of a method. Of the try blocks only the number is kept. -/
structure Body where
  /-- How many registers the code uses. -/
  registers : UInt16
  /-- How many of them, the last ones, hold the arguments. -/
  ins : UInt16
  /-- How many words of arguments the code passes on. -/
  outs : UInt16
  tries : UInt16
  units : List UInt16
deriving DecidableEq, Repr

/-- The body made of the given instructions. -/
def Body.ofInstructions (registers ins : UInt16) (is : List Instruction) :
    Except InstructionFault Body := do
  return ⟨registers, ins, 0, 0, ← Instruction.encodeAll is⟩

/-- The instructions of a body, if it refers to no table. -/
def Body.instructions (b : Body) : Except InstructionFault (List Instruction) :=
  Instruction.decodeAll b.units

/-- A field that a class declares. -/
structure Field where
  ref : FieldRef
  flags : FieldFlags
  initial : Option Value
  annotations : List Annotation

/-- Whether the field belongs to the class and not to its instances. -/
def Field.isStatic (f : Field) : Bool := f.flags.has Flag.staticBit

/-- Whether the value of the field never changes. -/
def Field.isFinal (f : Field) : Bool := f.flags.has Flag.finalBit

/-- A method that a class declares. -/
structure Method where
  ref : MethodRef
  flags : MethodFlags
  annotations : List Annotation
  /-- A list for each parameter; none at all where no parameter has any. -/
  parameterAnnotations : List (List Annotation)
  body : Option Body

namespace Method

/-- Whether the method has no receiver. -/
def isStatic (m : Method) : Bool := m.flags.has Flag.staticBit

/-- How many registers the receiver takes. -/
def receiverWidth (m : Method) : Nat := if m.isStatic then 0 else 1

/-- How many registers the arguments take, the receiver included. -/
def ins (m : Method) : Nat := m.receiverWidth + m.ref.prototype.parameterWidth

end Method

/-- A class. -/
structure ClassDecl where
  type : Descriptor
  flags : ClassFlags
  superclass : Option Descriptor
  interfaces : List Descriptor
  sourceFile : Option String
  annotations : List Annotation
  fields : List Field
  methods : List Method

namespace ClassDecl

/-- The first method of a name. -/
def method? (c : ClassDecl) (name : String) : Option Method :=
  c.methods.find? (·.ref.name == name)

/-- The first field of a name. -/
def field? (c : ClassDecl) (name : String) : Option Field :=
  c.fields.find? (·.ref.name == name)

/-- The classes and interfaces that the class builds on. -/
def parents (c : ClassDecl) : List Descriptor := c.superclass.toList ++ c.interfaces

end ClassDecl

/-- The classes of a container, and the version of its format. -/
structure File where
  version : Nat
  classes : List ClassDecl

namespace File

/-- The version of a file about which nothing is said. -/
def defaultVersion : Nat := 35

/-- The first version with method handles and method types. -/
def handleVersion : Nat := 38

/-- A version in the form it has in a container. -/
def renderVersion (version : Nat) : String := decimal 3 version

/-- The first class of a type. -/
def class? (f : File) (type : String) : Option ClassDecl := f.classes.find? (·.type.text == type)

end File

end StubJar.Dalvik
