import StubJar.Text.Numeral

/-!
# Instructions without indices

The loads of small constants and the returns: the instructions that mean the
same in every container, since none of them refers to its tables. Code is a
list of 16-bit units; an instruction takes one of them, or two when its
literal is a unit of its own.
-/

namespace StubJar.Dalvik

open StubJar.Text

/-- The number of a register. -/
abbrev Register := Nat

/-- An instruction that refers to no table. -/
inductive Instruction where
  | returnVoid
  | return32 (r : Register)
  /-- Returns the pair `r`, `r + 1`. -/
  | returnWide (r : Register)
  | returnObject (r : Register)
  /-- Loads a literal of four bits. -/
  | const4 (r : Register) (v : Int8)
  | const16 (r : Register) (v : Int16)
  /-- Loads the pair `r`, `r + 1`. -/
  | constWide16 (r : Register) (v : Int16)
deriving DecidableEq, Repr

/-- Why an instruction has no code units, or code units no instruction. -/
inductive InstructionFault where
  /-- The register does not fit into its field. -/
  | registerTooLarge (mnemonic : String) (r : Register)
  /-- The literal does not fit into its field. -/
  | literalTooLarge (mnemonic : String) (v : Int)
  /-- The low byte of the unit is no opcode of these instructions. -/
  | unsupportedOpcode (opcode offset : Nat)
  /-- The units end before the instruction does. -/
  | cutShort (offset : Nat)
deriving DecidableEq, Repr

/-- The wording of a fault. -/
def InstructionFault.message : InstructionFault → String
  | registerTooLarge mnemonic r => s!"register v{r} does not fit in `{mnemonic}`"
  | literalTooLarge mnemonic v => s!"literal {v} does not fit in `{mnemonic}`"
  | unsupportedOpcode opcode offset =>
    s!"unsupported opcode {hexLiteral 2 opcode} at code unit {offset}"
  | cutShort offset => s!"instruction truncated at code unit {offset}"

namespace Instruction

/-- The low byte of the first unit. -/
def opcode : Instruction → Nat
  | returnVoid => 0x0E
  | return32 _ => 0x0F
  | returnWide _ => 0x10
  | returnObject _ => 0x11
  | const4 .. => 0x12
  | const16 .. => 0x13
  | constWide16 .. => 0x16

/-- The name in listings. -/
def mnemonic : Instruction → String
  | returnVoid => "return-void"
  | return32 _ => "return"
  | returnWide _ => "return-wide"
  | returnObject _ => "return-object"
  | const4 .. => "const/4"
  | const16 .. => "const/16"
  | constWide16 .. => "const-wide/16"

/-- How many units the instruction takes. -/
def size : Instruction → Nat
  | const16 .. | constWide16 .. => 2
  | _ => 1

/-- The register operand. -/
def register? : Instruction → Option Register
  | returnVoid => none
  | return32 r | returnWide r | returnObject r => some r
  | const4 r _ | const16 r _ | constWide16 r _ => some r

/-- How many registers the instruction touches, from its operand on. -/
def span : Instruction → Nat
  | returnVoid => 0
  | returnWide _ | constWide16 .. => 2
  | _ => 1

/-- The last register the instruction touches. -/
def lastRegister? (i : Instruction) : Option Register :=
  i.register?.map fun r => r + i.span - 1

/-- The instruction with another register operand. -/
def withRegister (r : Register) : Instruction → Instruction
  | returnVoid => returnVoid
  | return32 _ => return32 r
  | returnWide _ => returnWide r
  | returnObject _ => returnObject r
  | const4 _ v => const4 r v
  | const16 _ v => const16 r v
  | constWide16 _ v => constWide16 r v

/-- The line of a listing. -/
def render (i : Instruction) : String :=
  match i with
  | returnVoid => i.mnemonic
  | return32 r | returnWide r | returnObject r => s!"{i.mnemonic} v{r}"
  | const4 r v => s!"{i.mnemonic} v{r}, #{v.toInt}"
  | const16 r v | constWide16 r v => s!"{i.mnemonic} v{r}, #{v.toInt}"

/-- The first unit of an instruction whose register has a field of eight
bits. -/
def wideField (i : Instruction) (r : Register) : Except InstructionFault UInt16 :=
  if 0xFF < r then .error (.registerTooLarge i.mnemonic r)
  else .ok (UInt16.ofNat (r * 0x100 + i.opcode))

/-- The units of an instruction. -/
def encode (i : Instruction) : Except InstructionFault (List UInt16) :=
  match i with
  | returnVoid => .ok [UInt16.ofNat i.opcode]
  | return32 r | returnWide r | returnObject r => do return [← i.wideField r]
  | const4 r v =>
    if 0x0F < r then .error (.registerTooLarge i.mnemonic r)
    else if v < -8 || 7 < v then .error (.literalTooLarge i.mnemonic v.toInt)
    else .ok [UInt16.ofNat ((v.toInt % 0x10).toNat * 0x1000 + r * 0x100 + i.opcode)]
  | const16 r v | constWide16 r v => do return [← i.wideField r, v.toUInt16]

/-- The units of a list of instructions; the first that has none is the
fault. -/
def encodeAll (is : List Instruction) : Except InstructionFault (List UInt16) := do
  return (← is.mapM encode).flatten

/-- What the first unit of an instruction says. -/
inductive Opening where
  /-- The unit is the whole instruction. -/
  | whole (i : Instruction)
  /-- The literal is the unit that follows. -/
  | withLiteral (i : Int16 → Instruction)
  /-- The unit opens no instruction. -/
  | unsupported (opcode : Nat)

/-- The upper four bits of a unit, as a signed number. -/
def upperNibble (u : UInt16) : Int8 := Int8.ofInt (Int.bmod (u.toNat / 0x1000) 0x10)

/-- Reads the first unit of an instruction. -/
def opening (u : UInt16) : Opening :=
  let r := u.toNat / 0x100
  match u.toNat % 0x100 with
  | 0x0E => .whole returnVoid
  | 0x0F => .whole (return32 r)
  | 0x10 => .whole (returnWide r)
  | 0x11 => .whole (returnObject r)
  | 0x12 => .whole (const4 (r % 0x10) (upperNibble u))
  | 0x13 => .withLiteral (const16 r)
  | 0x16 => .withLiteral (constWide16 r)
  | opcode => .unsupported opcode

/-- The instructions that the units spell, behind those already read (kept
in reverse); `offset` is the position of the first unit. -/
def decodeFrom (offset : Nat) (read : List Instruction) :
    List UInt16 → Except InstructionFault (List Instruction)
  | [] => .ok read.reverse
  | u :: us =>
    match opening u with
    | .whole i => decodeFrom (offset + 1) (i :: read) us
    | .withLiteral i =>
      match us with
      | v :: vs => decodeFrom (offset + 2) (i v.toInt16 :: read) vs
      | [] => .error (.cutShort offset)
    | .unsupported opcode => .error (.unsupportedOpcode opcode offset)

/-- The instructions that the units spell. -/
def decodeAll (units : List UInt16) : Except InstructionFault (List Instruction) :=
  decodeFrom 0 [] units

/-- The one instruction that starts at an offset. -/
def decodeAt (units : List UInt16) (offset : Nat) : Except InstructionFault Instruction :=
  match units.drop offset with
  | [] => .error (.cutShort offset)
  | u :: us =>
    match opening u with
    | .whole i => .ok i
    | .withLiteral i =>
      match us with
      | v :: _ => .ok (i v.toInt16)
      | [] => .error (.cutShort offset)
    | .unsupported opcode => .error (.unsupportedOpcode opcode offset)

end Instruction

end StubJar.Dalvik
