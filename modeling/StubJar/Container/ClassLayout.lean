import StubJar.Container.AnnotationLayout

/-!
# Placing code and members

The code of every method with a body, the members of every class with their
flags, and the strings. The code of a method is found again through its
index; where the file lists a method twice, the later body stands for both.
-/

namespace StubJar.Container

open StubJar.Bytes StubJar.Dalvik

/-- The bytes of a body, its try blocks and debug information left out. -/
def encodeBody (b : Body) : List UInt8 :=
  le 2 b.registers.toNat ++ le 2 b.ins.toNat ++ le 2 b.outs.toNat ++ le 2 0 ++ le 4 0
    ++ le 4 b.units.length ++ b.units.flatMap fun u => le 2 u.toNat

/-- Refuses a body that another container could not hold. -/
def checkBody (m : Method) (b : Body) : Except EncodeFault Unit :=
  if 0 < b.tries then .error (.tryBlocks m.ref.render)
  else match b.instructions with
    | .ok _ => .ok ()
    | .error reason => .error (.unsupportedBody m.ref.render reason)

/-- The methods that have a body, in the order in which the code stands. -/
def bodies (classes : List Placed) : List (Nat × Method × Body) :=
  classes.flatMap fun c => c.members.methods.filterMap fun (i, m) => m.body.map fun b => (i, m, b)

/-- Refuses the first body that another container could not hold. -/
def checkBodies (bodies : List (Nat × Method × Body)) : Except EncodeFault Unit :=
  bodies.forM fun (_, m, b) => checkBody m b

/-- Members in ascending order of their indices, each with the distance of
its index from the one before in front; the first distance is from zero. -/
def encodeMembers {α : Type} (form : Nat → α → List UInt8) (members : List (Nat × α)) :
    List UInt8 :=
  (members.zip (0 :: members.map Prod.fst)).flatMap
    fun ((i, a), previous) => uleb (i - previous) ++ form i a

/-- What is said about a field. -/
def encodeField (_ : Nat) (f : Field) : List UInt8 := uleb f.flags.bits.toNat

/-- What is said about a method: its flags, and where the code of its index
is. -/
def encodeMethod (code : Std.HashMap Nat Nat) (i : Nat) (m : Method) : List UInt8 :=
  uleb m.flags.bits.toNat ++ uleb (code.getD i 0)

/-- The members of a class, if it has any. -/
def encodeClassData? (code : Std.HashMap Nat Nat) (m : Members) : Option (List UInt8) :=
  if m.isEmpty then none
  else some (uleb m.statics.length ++ uleb m.instances.length ++ uleb m.directs.length
    ++ uleb m.virtuals.length
    ++ encodeMembers encodeField m.statics ++ encodeMembers encodeField m.instances
    ++ encodeMembers (encodeMethod code) m.directs ++ encodeMembers (encodeMethod code) m.virtuals)

/-- The bytes of a string: its length in UTF-16 units, its text, a zero
byte. -/
def encodeString (s : String) : List UInt8 :=
  uleb (Text.units s).length ++ Text.ModifiedUtf8.encode s ++ [0]

end StubJar.Container
