import StubJar.Bytes.Endian
import StubJar.ClassFile.Fault

/-!
# Instructions of a stub

The instructions that push a constant, and the returns. Each has the opcode
and the operand bytes of the virtual machine's table; a constant of the pool
is pushed in two bytes where its slot fits into one, and in three otherwise.
-/

namespace StubJar.ClassFile

open StubJar.Bytes

/-- What a method returns. -/
inductive ReturnKind where
  | int
  | long
  | float
  | double
  | reference
  | void
deriving DecidableEq, Repr

/-- The opcode of a return. -/
def ReturnKind.opcode : ReturnKind → Nat
  | int => 0xAC
  | long => 0xAD
  | float => 0xAE
  | double => 0xAF
  | reference => 0xB0
  | void => 0xB1

/-- An instruction that pushes a constant or returns. -/
inductive Instruction where
  | aconstNull
  /-- Pushes an `int` from -1 to 5, which is one less than `k`. -/
  | iconst (k : Fin 7)
  | lconst (k : Fin 2)
  | fconst (k : Fin 3)
  | dconst (k : Fin 2)
  | bipush (v : Int8)
  | sipush (v : Int16)
  /-- Pushes the constant at a slot. -/
  | ldc (slot : Nat)
  /-- Pushes the constant of two slots at a slot. -/
  | ldcWide (slot : Nat)
  | ret (kind : ReturnKind)
deriving DecidableEq, Repr

namespace Instruction

/-- The bytes of an instruction. -/
def encode : Instruction → List UInt8
  | aconstNull => [0x01]
  | iconst k => [UInt8.ofNat (0x02 + k)]
  | lconst k => [UInt8.ofNat (0x09 + k)]
  | fconst k => [UInt8.ofNat (0x0B + k)]
  | dconst k => [UInt8.ofNat (0x0E + k)]
  | bipush v => [0x10, v.toUInt8]
  | sipush v => 0x11 :: be 2 v.toUInt16.toNat
  | ldc slot => if slot < 0x100 then [0x12, UInt8.ofNat slot] else 0x13 :: be 2 slot
  | ldcWide slot => 0x14 :: be 2 slot
  | ret kind => [UInt8.ofNat kind.opcode]

/-- How many bytes the instruction takes. -/
def size : Instruction → Nat
  | bipush _ => 2
  | sipush _ | ldcWide _ => 3
  | ldc slot => if slot < 0x100 then 2 else 3
  | _ => 1

/-- How many slots of the operand stack the instruction pushes. -/
def pushed : Instruction → Nat
  | lconst _ | dconst _ | ldcWide _ => 2
  | ret _ => 0
  | _ => 1

/-- The shortest instruction that pushes an `int` and needs no constant of
the pool. -/
def pushInt? (v : Int) : Option Instruction :=
  if h : -1 ≤ v ∧ v ≤ 5 then some (iconst ⟨(v + 1).toNat, by omega⟩)
  else if -0x80 ≤ v ∧ v < 0x80 then some (bipush (Int8.ofInt v))
  else if -0x8000 ≤ v ∧ v < 0x8000 then some (sipush (Int16.ofInt v))
  else none

end Instruction

/-- How many slots of the operand stack the instructions need; nothing but a
return takes any away. -/
def stackDepth (code : List Instruction) : Nat := code.foldl (fun n i => n + i.pushed) 0

/-- The most bytes the code of a method may have. -/
def maxCodeSize : Nat := 65535

/-- The bytes of a list of instructions. -/
def encodeCode (code : List Instruction) : Except Fault (List UInt8) :=
  let bytes := code.flatMap Instruction.encode
  if maxCodeSize < bytes.length then .error (.codeTooLong bytes.length) else .ok bytes

end StubJar.ClassFile
