import StubJar.Proofs.Success
import StubJar.Stub.Substitution

/-!
# The bodies of stubs

Whatever the arguments of a method are, its stub is one of four bodies, which
differ in nothing but their registers (`stubBody_eq_ok`): renumbering moves the
returned value to the first register of the frame, where the shortest load
reaches it.
-/

namespace StubJar.Stub

open StubJar.Dalvik

namespace Shape

/-- The instructions of a stub over the registers of the frame. -/
def instructions : Shape → List Instruction
  | void => [.returnVoid]
  | zero => [.const4 0 0, .return32 0]
  | wideZero => [.constWide16 0 0, .returnWide 0]
  | nullReference => [.const4 0 0, .returnObject 0]

/-- The code units of a stub. -/
def units : Shape → List UInt16
  | void => [0x0E]
  | zero => [0x12, 0x0F]
  | wideZero => [0x16, 0, 0x10]
  | nullReference => [0x12, 0x11]

/-- The units of a stub are those of its instructions. -/
theorem encodeAll_instructions (shape : Shape) :
    Instruction.encodeAll shape.instructions = .ok shape.units := by
  cases shape <;> rfl

/-- They are read back as the instructions. -/
theorem decodeAll_units (shape : Shape) :
    Instruction.decodeAll shape.units = .ok shape.instructions := by
  cases shape <;> rfl

end Shape

/-- The result of a stub stands in the first register. -/
theorem scratch_inFrame (shape : Shape) (isStatic : Bool) (parameters : Nat) :
    (Plan.ofShape shape isStatic parameters).frameRegister
      (Plan.ofShape shape isStatic parameters).scratch = 0 := by
  rw [Plan.frameRegister, Plan.scratch, if_neg (Nat.lt_irrefl _), Nat.sub_self]

/-- Whichever load is the shortest in the plan, the one in the frame is the
same. -/
theorem renumber_load (f : Register → Register) (r : Register) (first : f r = 0) :
    renumber f (shortestLoad r 0) = .const4 0 0 := by
  rw [shortestLoad]
  split
  · rw [renumber, first]
    rfl
  · rw [renumber, first]
    rfl

/-- In the frame, the draft is the instructions of the shape. -/
theorem inFrame_ofShape (shape : Shape) (isStatic : Bool) (parameters : Nat) :
    (Draft.ofShape shape isStatic parameters).inFrame = shape.instructions := by
  have scratch := scratch_inFrame shape isStatic parameters
  cases shape with
  | void => rfl
  | wideZero =>
    simp only [Draft.inFrame, Draft.ofShape, List.map_cons, List.map_nil, renumber, scratch]
    rfl
  | zero | nullReference =>
    simp only [Draft.inFrame, Draft.ofShape, List.map_cons, List.map_nil, renumber_load _ _ scratch]
    simp only [renumber, scratch]
    rfl

/-- A stub: its shape goes with the returned type, and the arguments take
no more registers than a call can pass. -/
theorem stubBody_eq_ok {m : Method} {body : Body} :
    stubBody m = .ok body ↔ ∃ shape, Shape.ofReturnType? m.ref.prototype.result = some shape
      ∧ m.ins ≤ maxArgumentWidth
      ∧ body = ⟨UInt16.ofNat (m.ins + shape.width), UInt16.ofNat m.ins, 0, 0, shape.units⟩ := by
  rw [stubBody]
  have draft (shape : Shape) :
      (Draft.ofShape shape m.isStatic m.ref.prototype.parameterWidth).body
        = .ok ⟨UInt16.ofNat (m.ins + shape.width), UInt16.ofNat m.ins, 0, 0, shape.units⟩ := by
    rw [Draft.body, inFrame_ofShape, Body.ofInstructions, Shape.encodeAll_instructions]
    rfl
  cases known : Shape.ofReturnType? m.ref.prototype.result with
  | none =>
    constructor
    · intro h
      cases h
    · rintro ⟨shape, h, _⟩
      cases h
  | some shape =>
    simp only [draft, Option.some.injEq, exists_eq_left']
    split
    · rename_i many
      constructor
      · intro h
        cases h
      · rintro ⟨few, _⟩
        omega
    · rename_i few
      constructor
      · intro h
        exact ⟨by omega, (Except.ok.inj h).symm⟩
      · rintro ⟨_, rfl⟩
        rfl

end StubJar.Stub

namespace StubJar.Dalvik

open StubJar.Stub

/-- The method that has a stub in place of its body, if it is to have one. -/
theorem Method.stubbed_eq_ok {m n : Method} :
    m.stubbed = .ok n ↔ (m.flags.isBodiless = true ∧ n = m)
      ∨ (m.flags.isBodiless = false
        ∧ ∃ body, stubBody m = .ok body ∧ n = ⟨m.ref, m.flags, [], [], some body⟩) := by
  rw [Method.stubbed]
  cases m.flags.isBodiless with
  | true => simp [eq_comm]
  | false =>
    simp only [Bool.false_eq_true, if_false, false_and, true_and, false_or, bind_eq_ok]
    exact ⟨fun ⟨body, made, same⟩ => ⟨body, made, (Except.ok.inj same).symm⟩,
      fun ⟨body, made, same⟩ => ⟨body, made, same ▸ rfl⟩⟩

/-- The stub of a class has the stubs of its methods. -/
theorem ClassDecl.stubbed_eq_ok {c d : ClassDecl} :
    c.stubbed = .ok d ↔ ∃ methods, List.Forall₂ (fun m n => m.stubbed = .ok n) c.methods methods
      ∧ d = { c with methods := methods } := by
  rw [ClassDecl.stubbed, bind_eq_ok]
  simp only [mapM_eq_ok]
  exact ⟨fun ⟨methods, made, same⟩ => ⟨methods, made, (Except.ok.inj same).symm⟩,
    fun ⟨methods, made, same⟩ => ⟨methods, made, same ▸ rfl⟩⟩

/-- The stub of a file has the stubs of its classes. -/
theorem File.stubbed_eq_ok {f g : File} :
    f.stubbed = .ok g ↔ ∃ classes, List.Forall₂ (fun c d => c.stubbed = .ok d) f.classes classes
      ∧ g = { f with classes := classes } := by
  rw [File.stubbed, bind_eq_ok]
  simp only [mapM_eq_ok]
  exact ⟨fun ⟨classes, made, same⟩ => ⟨classes, made, (Except.ok.inj same).symm⟩,
    fun ⟨classes, made, same⟩ => ⟨classes, made, same ▸ rfl⟩⟩

end StubJar.Dalvik
