import StubJar.Dalvik.File
import StubJar.Stub.Shape

/-!
# Registers of a stub

A stub is planned with the arguments in the first registers and the returned
value behind them. In the frame of a method the arguments take the last
registers, so a body is renumbered before it is encoded: the returned value
moves to the front. A register with a small number can be loaded with a
shorter instruction, so each load is chosen again for its new register.
-/

namespace StubJar.Stub

open StubJar.Dalvik

/-- How many registers the parts of a stub take. -/
structure Plan where
  receiver : Nat
  result : Nat
  parameters : Nat
deriving DecidableEq, Repr

namespace Plan

/-- The plan of a stub of some shape for a method whose parameters take some
registers. -/
def ofShape (shape : Shape) (isStatic : Bool) (parameters : Nat) : Plan :=
  ⟨if isStatic then 0 else 1, shape.width, parameters⟩

/-- How many registers hold arguments. -/
def ins (p : Plan) : Nat := p.receiver + p.parameters

/-- How many registers there are. -/
def size (p : Plan) : Nat := p.ins + p.result

/-- The first register behind the arguments. -/
def scratch (p : Plan) : Register := p.ins

/-- The number of a register in the frame. -/
def frameRegister (p : Plan) (r : Register) : Register :=
  if r < p.ins then r + p.result else r - p.ins

end Plan

/-- The shortest instruction that loads a literal of 32 bits. -/
def shortestLoad (r : Register) (v : Int16) : Instruction :=
  if r ≤ 0x0F && -8 ≤ v && v ≤ 7 then .const4 r v.toInt8 else .const16 r v

/-- An instruction with its register renumbered. -/
def renumber (f : Register → Register) : Instruction → Instruction
  | .returnVoid => .returnVoid
  | .return32 r => .return32 (f r)
  | .returnWide r => .returnWide (f r)
  | .returnObject r => .returnObject (f r)
  | .const4 r v => shortestLoad (f r) v.toInt16
  | .const16 r v => shortestLoad (f r) v
  | .constWide16 r v => .constWide16 (f r) v

/-- Instructions over the registers of a plan. -/
structure Draft where
  plan : Plan
  instructions : List Instruction
deriving DecidableEq, Repr

namespace Draft

/-- The stub of a shape: loads the value it returns behind the arguments. -/
def ofShape (shape : Shape) (isStatic : Bool) (parameters : Nat) : Draft :=
  let plan := Plan.ofShape shape isStatic parameters
  let r := plan.scratch
  ⟨plan, match shape with
    | .void => [.returnVoid]
    | .zero => [shortestLoad r 0, .return32 r]
    | .wideZero => [.constWide16 r 0, .returnWide r]
    | .nullReference => [shortestLoad r 0, .returnObject r]⟩

/-- The instructions over the registers of the frame. -/
def inFrame (d : Draft) : List Instruction :=
  d.instructions.map (renumber d.plan.frameRegister)

/-- The body that a container can hold. -/
def body (d : Draft) : Except InstructionFault Body :=
  Body.ofInstructions (UInt16.ofNat d.plan.size) (UInt16.ofNat d.plan.ins) d.inFrame

end Draft

end StubJar.Stub
