import Std.Data.HashMap
import StubJar.Bytes.Endian
import StubJar.ClassFile.Fault
import StubJar.Text.ModifiedUtf8

/-!
# The constant pool

A constant is put into the pool once; asking for it again gives the slot it
has. Slots are counted from one, and a constant of 64 bits takes two of them.
A constant for which there is no room is a fault, and the pool stays as it
was.
-/

namespace StubJar.ClassFile

open StubJar.Bytes

/-- A constant. Names of classes and contents of strings are texts of the
pool, referred to by slot; floating-point values are their bits. -/
inductive Constant where
  | utf8 (s : String)
  | integer (v : Int32)
  | float (bits : UInt32)
  | long (v : Int64)
  | double (bits : UInt64)
  | classRef (name : Nat)
  | stringRef (text : Nat)
deriving DecidableEq, Hashable, Repr

namespace Constant

/-- How many slots a constant takes. -/
def width : Constant → Nat
  | long _ | double _ => 2
  | _ => 1

/-- The bytes of a constant. -/
def encode : Constant → List UInt8
  | utf8 s =>
    let text := Text.ModifiedUtf8.encode s
    1 :: (be 2 text.length ++ text)
  | integer v => 3 :: be 4 v.toUInt32.toNat
  | float bits => 4 :: be 4 bits.toNat
  | long v => 5 :: be 8 v.toUInt64.toNat
  | double bits => 6 :: be 8 bits.toNat
  | classRef name => 7 :: be 2 name
  | stringRef text => 8 :: be 2 text

end Constant

/-- The constants in the order of their slots, the next free slot, and the
slot of each constant. -/
structure ConstantPool where
  constants : Array Constant
  next : Nat
  slots : Std.HashMap Constant Nat

namespace ConstantPool

/-- The pool without constants. -/
def empty : ConstantPool := ⟨#[], 1, {}⟩

/-- The number that no slot may reach. -/
def limit : Nat := 65535

/-- How many slots are taken. -/
def size (p : ConstantPool) : Nat := p.next - 1

/-- Whether there is no constant. -/
def isEmpty (p : ConstantPool) : Bool := p.constants.isEmpty

/-- The pool with a further constant. -/
def push (p : ConstantPool) (c : Constant) : ConstantPool :=
  let next := p.next
  ⟨p.constants.push c, next + c.width, p.slots.insert c next⟩

/-- The bytes of the pool: the next free slot, then the constants. -/
def encode (p : ConstantPool) : List UInt8 :=
  be 2 p.next ++ p.constants.toList.flatMap Constant.encode

end ConstantPool

/-- A computation that may put constants into a pool. What a failing one has
put there stays. -/
abbrev PoolM (ε : Type) := ExceptT ε (StateM ConstantPool)

namespace PoolM

/-- The slot of a constant, which is put into the pool if it is not there. -/
def slot (c : Constant) : PoolM Fault Nat := fun p =>
  match p.slots[c]? with
  | some slot => (.ok slot, p)
  | none =>
    let next := p.next
    if ConstantPool.limit < next + c.width then (.error (.poolOverflow next), p)
    else (.ok next, p.push c)

/-- The slot of a text. -/
def utf8 (s : String) : PoolM Fault Nat := slot (.utf8 s)

/-- The slot of a class, given its name or the descriptor of an array. -/
def classRef (name : String) : PoolM Fault Nat := do slot (.classRef (← utf8 name))

/-- The slot of a string constant. -/
def stringRef (s : String) : PoolM Fault Nat := do slot (.stringRef (← utf8 s))

/-- The slot of a number that is an `int` to the virtual machine. -/
def integer (v : Int) : PoolM Fault Nat := slot (.integer (Int32.ofInt v))

/-- The same computation with its faults renamed. -/
def mapFault {ε δ α : Type} (f : ε → δ) (x : PoolM ε α) : PoolM δ α := fun p =>
  let (result, p) := x p
  (result.mapError f, p)

end PoolM

end StubJar.ClassFile
