/-!
# What a class file has no room for
-/

namespace StubJar.ClassFile

/-- Why there is no class file. -/
inductive Fault where
  /-- A constant that is not in the pool does not fit at the next slot. -/
  | poolOverflow (slot : Nat)
  /-- The code of a method has more bytes than can be counted. -/
  | codeTooLong (size : Nat)
deriving DecidableEq, Repr

/-- The wording of a fault. -/
def Fault.message : Fault → String
  | poolOverflow slot => s!"constant pool is full at slot {slot}"
  | codeTooLong size => s!"method code is {size} bytes long"

end StubJar.ClassFile
