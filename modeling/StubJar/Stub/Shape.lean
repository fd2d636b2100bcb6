import StubJar.Dalvik.Descriptor

/-!
# Shapes of stubs

What a stub has to do follows from the type that the method returns. There is
no shape for a type that is neither `void` nor a primitive nor a reference.
-/

namespace StubJar.Stub

open StubJar.Dalvik

/-- What a stub does. -/
inductive Shape where
  /-- Returns. -/
  | void
  /-- Returns a zero of 32 bits. -/
  | zero
  /-- Returns a zero of 64 bits. -/
  | wideZero
  /-- Returns the null reference. -/
  | nullReference
deriving DecidableEq, Repr

namespace Shape

/-- How many registers the returned value takes. -/
def width : Shape → Nat
  | void => 0
  | zero | nullReference => 1
  | wideZero => 2

/-- The shape for the letter of a type. -/
def ofLetter? : Char → Option Shape
  | 'V' => some void
  | 'Z' | 'B' | 'S' | 'C' | 'I' | 'F' => some zero
  | 'J' | 'D' => some wideZero
  | 'L' => some nullReference
  | _ => none

/-- The shape for a method that returns a type. -/
def ofReturnType? (d : Descriptor) : Option Shape := d.shorty?.bind ofLetter?

end Shape

end StubJar.Stub
