/-!
# Access flags

Classes, fields and methods each have a set of flags of their own. The bits
are kept as they are; `isKnown` says whether each of them has a meaning for
the kind of item that carries them.
-/

namespace StubJar.Dalvik

/-! The bits of the single flags. Some bits mean one thing on a field and
another on a method. -/

namespace Flag

/-- Seen everywhere. -/
def publicBit : UInt32 := 0x0001

/-- Seen in its class only. -/
def privateBit : UInt32 := 0x0002

/-- Seen in its package and in subclasses. -/
def protectedBit : UInt32 := 0x0004

/-- Belongs to the class and not to its instances. -/
def staticBit : UInt32 := 0x0008

/-- Never changed, overridden or extended. -/
def finalBit : UInt32 := 0x0010

/-- The virtual machine takes a lock around the method. -/
def synchronizedBit : UInt32 := 0x0020

/-- Read and written in order by all threads. -/
def volatileBit : UInt32 := 0x0040

/-- Made by the compiler to carry an overridden signature. -/
def bridgeBit : UInt32 := 0x0040

/-- Left out when its object is saved. -/
def transientBit : UInt32 := 0x0080

/-- The last parameter collects further arguments. -/
def varargsBit : UInt32 := 0x0080

/-- Has its code elsewhere. -/
def nativeBit : UInt32 := 0x0100

/-- An interface. -/
def interfaceBit : UInt32 := 0x0200

/-- To be completed by subclasses. -/
def abstractBit : UInt32 := 0x0400

/-- Computes with floating-point numbers strictly. -/
def strictBit : UInt32 := 0x0800

/-- Made by the compiler. -/
def syntheticBit : UInt32 := 0x1000

/-- An annotation interface. -/
def annotationBit : UInt32 := 0x2000

/-- An enumeration, or one of its constants. -/
def enumBit : UInt32 := 0x4000

/-- A constructor or an initializer. -/
def constructorBit : UInt32 := 0x10000

/-- Declared to take a lock. -/
def declaredSynchronizedBit : UInt32 := 0x20000

end Flag

/-- A set of flags on an item for which the bits of `known` have a meaning. -/
structure AccessFlags (known : UInt32) where
  bits : UInt32
deriving DecidableEq, Repr

namespace AccessFlags

variable {known : UInt32}

/-- Whether one of the bits of `flag` is set. -/
def has (f : AccessFlags known) (flag : UInt32) : Bool := f.bits &&& flag != 0

/-- The bits without a meaning. -/
def unknownBits (f : AccessFlags known) : UInt32 := f.bits &&& ~~~known

/-- Whether every bit has a meaning. -/
def isKnown (f : AccessFlags known) : Bool := f.unknownBits == 0

/-- The flags with the given bits, if each of them has a meaning. -/
def ofBits? (bits : UInt32) : Option (AccessFlags known) :=
  let flags : AccessFlags known := ⟨bits⟩
  if flags.isKnown then some flags else none

end AccessFlags

/-- The bits with a meaning on a class. -/
def classBits : UInt32 :=
  Flag.publicBit ||| Flag.privateBit ||| Flag.protectedBit ||| Flag.staticBit ||| Flag.finalBit
    ||| Flag.interfaceBit ||| Flag.abstractBit ||| Flag.syntheticBit ||| Flag.annotationBit
    ||| Flag.enumBit

/-- The bits with a meaning on a field. -/
def fieldBits : UInt32 :=
  Flag.publicBit ||| Flag.privateBit ||| Flag.protectedBit ||| Flag.staticBit ||| Flag.finalBit
    ||| Flag.volatileBit ||| Flag.transientBit ||| Flag.syntheticBit ||| Flag.enumBit

/-- The bits with a meaning on a method. -/
def methodBits : UInt32 :=
  Flag.publicBit ||| Flag.privateBit ||| Flag.protectedBit ||| Flag.staticBit ||| Flag.finalBit
    ||| Flag.synchronizedBit ||| Flag.bridgeBit ||| Flag.varargsBit ||| Flag.nativeBit
    ||| Flag.abstractBit ||| Flag.strictBit ||| Flag.syntheticBit ||| Flag.constructorBit
    ||| Flag.declaredSynchronizedBit

/-- Flags on a class. -/
abbrev ClassFlags := AccessFlags classBits

/-- Flags on a field. -/
abbrev FieldFlags := AccessFlags fieldBits

/-- Flags on a method. -/
abbrev MethodFlags := AccessFlags methodBits

/-- Static methods, private methods and constructors are listed apart from
the methods that a subclass may override. -/
def AccessFlags.isDirect (f : MethodFlags) : Bool :=
  f.has (Flag.staticBit ||| Flag.privateBit ||| Flag.constructorBit)

/-- Abstract and native methods have no body. -/
def AccessFlags.isBodiless (f : MethodFlags) : Bool := f.has (Flag.abstractBit ||| Flag.nativeBit)

end StubJar.Dalvik
