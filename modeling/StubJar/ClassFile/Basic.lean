import StubJar.ClassFile.Attribute
import StubJar.ClassFile.Flags
import StubJar.ClassFile.Instruction

/-!
# Class files

A class file is a version, a pool of constants, and the parts of a class with
slots of the pool in place of names. All numbers have their highest byte
first.
-/

namespace StubJar.ClassFile

open StubJar.Bytes

/-- The version of the format; the minor part is always zero. -/
structure Version where
  major : UInt16
deriving DecidableEq, Repr

namespace Version

/-- The oldest version with attributes for annotations and signatures. -/
def minimum : Version := ⟨49⟩

/-- The newest version that is written. -/
def maximum : Version := ⟨65⟩

/-- The version where nothing else is asked for. -/
def default : Version := ⟨52⟩

/-- Whether a version may be asked for. -/
def isAccepted (v : Version) : Bool := minimum.major ≤ v.major && v.major ≤ maximum.major

/-- Major and minor part. -/
def render (v : Version) : String := s!"{v.major}.0"

/-- The bytes of a version, the minor part first. -/
def encode (v : Version) : List UInt8 := be 2 0 ++ be 2 v.major.toNat

end Version

/-- A field or a method. -/
structure Member where
  flags : UInt32
  name : Nat
  descriptor : Nat
  attributes : List Attribute

/-- Attributes behind their number. -/
def encodeAttributes (attributes : List Attribute) : List UInt8 :=
  countedItems 2 (attributes.map Attribute.encode)

/-- The bytes of a field or a method. -/
def Member.encode (m : Member) : List UInt8 :=
  be 2 m.flags.toNat ++ be 2 m.name ++ be 2 m.descriptor ++ encodeAttributes m.attributes

/-- The parts of a class; names are slots of the pool. -/
structure Parts where
  flags : UInt32
  thisClass : Nat
  superClass : Option Nat
  interfaces : List Nat
  fields : List Member
  methods : List Member
  attributes : List Attribute

/-- The bytes by which a class file is recognised. -/
def magic : List UInt8 := [0xCA, 0xFE, 0xBA, 0xBE]

/-- The bytes of a class file. -/
def encode (version : Version) (pool : ConstantPool) (c : Parts) : List UInt8 :=
  magic ++ version.encode ++ pool.encode ++ be 2 c.flags.toNat ++ be 2 c.thisClass
    ++ be 2 (c.superClass.getD 0) ++ countedItems 2 (c.interfaces.map (be 2))
    ++ countedItems 2 (c.fields.map Member.encode) ++ countedItems 2 (c.methods.map Member.encode)
    ++ encodeAttributes c.attributes

end StubJar.ClassFile
