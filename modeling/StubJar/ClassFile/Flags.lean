import StubJar.Dalvik.Flags

/-!
# Access flags of class files

Class files and containers give the same bits the same meaning, but each of
them has flags that the other lacks. A class file has room for sixteen bits.
-/

namespace StubJar.ClassFile

open StubJar.Dalvik

/-- Calls of methods of the superclass are resolved in the modern way. -/
def superBit : UInt32 := 0x0020

/-- The bits with a meaning on a class. -/
def classBits : UInt32 :=
  Flag.publicBit ||| Flag.finalBit ||| superBit ||| Flag.interfaceBit ||| Flag.abstractBit
    ||| Flag.syntheticBit ||| Flag.annotationBit ||| Flag.enumBit

/-- The bits with a meaning on a field: the same as in a container. -/
def fieldBits : UInt32 := Dalvik.fieldBits

/-- The bits with a meaning on a method: those of a container that fit into
sixteen bits. -/
def methodBits : UInt32 := Dalvik.methodBits &&& 0xFFFF

/-- The flags of a class. A class file has no private, protected or static
classes: a protected class becomes public, and every class that is no
interface gets the bit of modern calls. -/
def flagsOfClass (f : ClassFlags) : UInt32 :=
  let kept := f.bits &&& ~~~(Flag.privateBit ||| Flag.protectedBit ||| Flag.staticBit) &&& classBits
  let widened := if f.has Flag.protectedBit then kept ||| Flag.publicBit else kept
  if f.has Flag.interfaceBit then widened else widened ||| superBit

/-- The flags of a field. -/
def flagsOfField (f : FieldFlags) : UInt32 := f.bits &&& fieldBits

/-- The flags of a method. What a container declares as synchronized is
synchronized in a class file. -/
def flagsOfMethod (f : MethodFlags) : UInt32 :=
  let kept := f.bits &&& methodBits
  if f.has Flag.declaredSynchronizedBit then kept ||| Flag.synchronizedBit else kept

end StubJar.ClassFile
