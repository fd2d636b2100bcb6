import Std.Data.HashMap
import StubJar.ClassFile.Basic
import StubJar.Dalvik.File
import StubJar.Translation.Fault

/-!
# Translating stubs

A body that can be translated loads constants and then returns. What the
returned register holds at that point is pushed by the shortest instruction
of the class file and returned as the declared type asks for.

A pair of registers holds one constant of 64 bits. Writing either register of
a pair destroys the constant, so what is left in the other is forgotten.
-/

namespace StubJar.Translation

open StubJar.Dalvik StubJar.ClassFile

/-- What a register is known to hold. -/
inductive Held where
  | narrow (v : Int32)
  /-- A constant of 64 bits, together with the next register. -/
  | wide (v : Int64)
  /-- The second half of a constant of 64 bits. -/
  | upperHalf
deriving DecidableEq, Repr

/-- What registers are known to hold. -/
abbrev Registers := Std.HashMap Register Held

/-- Writes a register, and forgets the other half of what it held. -/
def Registers.write (rs : Registers) (r : Register) (held : Held) : Registers :=
  match rs[r]? with
  | some (.wide _) => (rs.insert r held).erase (r + 1)
  | some .upperHalf => if 0 < r then (rs.insert r held).erase (r - 1) else rs.insert r held
  | _ => rs.insert r held

/-- A computation on a pool of constants that a translation is part of. -/
abbrev Translator := PoolM Fault

/-- A fault of the class file is one of the translation. -/
instance : MonadLift (PoolM ClassFile.Fault) Translator where
  monadLift := PoolM.mapFault Fault.classFile

/-- The shortest instruction that pushes an `int`. -/
def intPush (v : Int32) : PoolM ClassFile.Fault ClassFile.Instruction :=
  match ClassFile.Instruction.pushInt? v.toInt with
  | some i => return i
  | none => return .ldc (← PoolM.slot (.integer v))

/-- The shortest instruction that pushes a `float`. -/
def floatPush (bits : UInt32) : PoolM ClassFile.Fault ClassFile.Instruction :=
  if bits = 0 then return .fconst 0
  else if bits = 0x3F800000 then return .fconst 1
  else if bits = 0x40000000 then return .fconst 2
  else return .ldc (← PoolM.slot (.float bits))

/-- The shortest instruction that pushes a `long`. -/
def longPush (v : Int64) : PoolM ClassFile.Fault ClassFile.Instruction :=
  if v = 0 then return .lconst 0
  else if v = 1 then return .lconst 1
  else return .ldcWide (← PoolM.slot (.long v))

/-- The shortest instruction that pushes a `double`. -/
def doublePush (bits : UInt64) : PoolM ClassFile.Fault ClassFile.Instruction :=
  if bits = 0 then return .dconst 0
  else if bits = 0x3FF0000000000000 then return .dconst 1
  else return .ldcWide (← PoolM.slot (.double bits))

/-- What a register holds, as a constant of 32 bits. -/
def narrowAt (m : Method) (rs : Registers) (r : Register) : Translator Int32 :=
  match rs[r]? with
  | some (.narrow v) => return v
  | _ => throw (.uninitializedRegister m.ref.render r)

/-- What a pair of registers holds, as a constant of 64 bits. -/
def wideAt (m : Method) (rs : Registers) (r : Register) : Translator Int64 :=
  match rs[r]? with
  | some (.wide v) => return v
  | _ => throw (.uninitializedRegister m.ref.render r)

/-- The code for a return. The letter of the declared type decides which
return there must be and how the constant is meant; the only reference is the
null reference. -/
def returnCode (m : Method) (rs : Registers) (i : Dalvik.Instruction) :
    Translator (List ClassFile.Instruction) := do
  let returnType := m.ref.prototype.result
  let mismatch := Fault.returnMismatch m.ref.render returnType.text i.mnemonic
  match i, returnType.shorty? with
  | .returnVoid, some 'V' => return [.ret .void]
  | .return32 r, some 'F' =>
    let v ← narrowAt m rs r
    return [← floatPush v.toUInt32, .ret .float]
  | .returnWide r, some 'J' =>
    let v ← wideAt m rs r
    return [← longPush v, .ret .long]
  | .returnWide r, some 'D' =>
    let v ← wideAt m rs r
    return [← doublePush v.toUInt64, .ret .double]
  | .returnObject r, some 'L' =>
    let v ← narrowAt m rs r
    if v = 0 then return [.aconstNull, .ret .reference] else throw mismatch
  | .return32 r, some letter =>
    if letter ∈ ['Z', 'B', 'S', 'C', 'I'] then
      let v ← narrowAt m rs r
      return [← intPush v, .ret .int]
    else throw mismatch
  | _, _ => throw mismatch

/-- The code for loads followed by a return, where the registers hold what
the loads before have left there. -/
def codeFrom (m : Method) : Registers → List Dalvik.Instruction →
    Translator (List ClassFile.Instruction)
  | _, [] => throw (.missingReturn m.ref.render)
  | rs, i :: is =>
    match i with
    | .const4 r v => codeFrom m (Registers.write rs r (.narrow v.toInt32)) is
    | .const16 r v => codeFrom m (Registers.write rs r (.narrow v.toInt32)) is
    | .constWide16 r v =>
      codeFrom m (Registers.write (Registers.write rs r (.wide v.toInt64)) (r + 1) .upperHalf) is
    | .returnVoid | .return32 _ | .returnWide _ | .returnObject _ => do
      let code ← returnCode m rs i
      if is.isEmpty then return code else throw (.unreachableInstructions m.ref.render)

/-- The code of a method. -/
def codeOf (m : Method) : Translator Code := do
  match m.body with
  | none => throw (.missingCode m.ref.render)
  | some body =>
    match body.instructions with
    | .error reason => throw (.unsupportedBody m.ref.render reason)
    | .ok is =>
      let code ← codeFrom m {} is
      match encodeCode code with
      | .error fault => throw (.classFile fault)
      | .ok bytes => return ⟨stackDepth code, m.ins, bytes, []⟩

end StubJar.Translation
