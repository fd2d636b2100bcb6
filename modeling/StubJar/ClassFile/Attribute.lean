import StubJar.ClassFile.ConstantPool

/-!
# Attributes

An attribute is a name and bytes. The contents know their name, so that
`Attribute.of` needs nothing else. Lists are counted in two bytes, the lists
of annotations of parameters in one, and a count too large for that loses its
high part.
-/

namespace StubJar.ClassFile

open StubJar.Bytes

/-- Items behind their number in `width` bytes. -/
def countedItems (width : Nat) (items : List (List UInt8)) : List UInt8 :=
  be width items.length ++ items.flatten

/-- A name, by its slot, and bytes. -/
structure Attribute where
  name : Nat
  info : List UInt8
deriving DecidableEq, Repr, Inhabited

/-- The bytes of an attribute. -/
def Attribute.encode (a : Attribute) : List UInt8 := be 2 a.name ++ be 4 a.info.length ++ a.info

/-- The value of an element of an annotation. Everything is given by slots. -/
inductive ElementValue where
  /-- A primitive or a text, with the letter that says which. -/
  | constant (tag : UInt8) (slot : Nat)
  | enum (type name : Nat)
  | classInfo (descriptor : Nat)
  | nested (type : Nat) (elements : List (Nat × ElementValue))
  | array (items : List ElementValue)
deriving Inhabited

mutual

/-- The bytes of a value. -/
def ElementValue.encode : ElementValue → List UInt8
  | .constant tag slot => tag :: be 2 slot
  | .enum type name => 0x65 :: (be 2 type ++ be 2 name)
  | .classInfo descriptor => 0x63 :: be 2 descriptor
  | .nested type elements =>
    0x40 :: (be 2 type ++ countedItems 2 (ElementValue.encodeElements elements))
  | .array items => 0x5B :: countedItems 2 (ElementValue.encodeItems items)

/-- The bytes of each of a list of values. -/
def ElementValue.encodeItems : List ElementValue → List (List UInt8)
  | [] => []
  | v :: vs => v.encode :: ElementValue.encodeItems vs

/-- The bytes of each of a list of elements. -/
def ElementValue.encodeElements : List (Nat × ElementValue) → List (List UInt8)
  | [] => []
  | (name, v) :: elements => (be 2 name ++ v.encode) :: ElementValue.encodeElements elements

end

/-- An annotation, by its type and its elements. -/
structure Annotation where
  type : Nat
  elements : List (Nat × ElementValue)

/-- The bytes of an annotation. -/
def Annotation.encode (a : Annotation) : List UInt8 :=
  be 2 a.type ++ countedItems 2 (ElementValue.encodeElements a.elements)

/-- The bytes of a list of annotations. -/
def encodeAnnotations (annotations : List Annotation) : List UInt8 :=
  countedItems 2 (annotations.map Annotation.encode)

/-- The code of a method, without exception handlers. -/
structure Code where
  maxStack : Nat
  maxLocals : Nat
  code : List UInt8
  attributes : List Attribute

/-- The bytes of a code attribute. -/
def Code.encode (c : Code) : List UInt8 :=
  be 2 c.maxStack ++ be 2 c.maxLocals ++ be 4 c.code.length ++ c.code ++ be 2 0
    ++ countedItems 2 (c.attributes.map Attribute.encode)

/-- What an attribute can hold. An annotation is visible if the running
program gets to see it. -/
inductive Content where
  | constantValue (slot : Nat)
  | code (c : Code)
  | sourceFile (name : Nat)
  | signature (text : Nat)
  | exceptions (classes : List Nat)
  | annotations (visible : Bool) (annotations : List Annotation)
  | parameterAnnotations (visible : Bool) (parameters : List (List Annotation))

namespace Content

/-- The name of the attribute. -/
def name : Content → String
  | constantValue _ => "ConstantValue"
  | code _ => "Code"
  | sourceFile _ => "SourceFile"
  | signature _ => "Signature"
  | exceptions _ => "Exceptions"
  | annotations true _ => "RuntimeVisibleAnnotations"
  | annotations false _ => "RuntimeInvisibleAnnotations"
  | parameterAnnotations true _ => "RuntimeVisibleParameterAnnotations"
  | parameterAnnotations false _ => "RuntimeInvisibleParameterAnnotations"

/-- The bytes behind the length of the attribute. -/
def encode : Content → List UInt8
  | constantValue slot | sourceFile slot | signature slot => be 2 slot
  | code c => c.encode
  | exceptions classes => countedItems 2 (classes.map (be 2))
  | annotations _ list => encodeAnnotations list
  | parameterAnnotations _ parameters => countedItems 1 (parameters.map encodeAnnotations)

end Content

/-- The attribute that holds something. -/
def Attribute.of (c : Content) : PoolM Fault Attribute := do return ⟨← PoolM.utf8 c.name, c.encode⟩

end StubJar.ClassFile
