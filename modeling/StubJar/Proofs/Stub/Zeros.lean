import StubJar.Proofs.Dalvik.Execution
import StubJar.Proofs.Stub.Refusals

/-!
# Stubs return zero

Run on any frame of its size, the stub of a method returns the zero of the declared
result, by the return that the result calls for (`Method.stubbed_answers`). It touches
only the registers in front of the arguments, and none that it has not written is read.

The instructions over the frame are one of four lists (`inFrame_ofShape`), so all of this
is a matter of the shape; the method comes in with the number of its arguments alone.
-/

namespace StubJar.Stub

open StubJar.Dalvik

/-- The zero of a type with the letter, in a return of its kind. -/
def zeroAnswer : Char → Answer
  | 'V' => .nothing
  | 'J' | 'D' => .pair 0
  | 'L' => .reference 0
  | _ => .word 0

namespace Shape

/-- What a stub returns. -/
def answer : Shape → Answer
  | void => .nothing
  | zero => .word 0
  | wideZero => .pair 0
  | nullReference => .reference 0

/-- An answer has as many words as its shape. -/
theorem width_answer (shape : Shape) : shape.answer.width = shape.width := by
  cases shape <;> rfl

/-- The answer for a letter is its zero. -/
theorem answer_of_letter {letter : Char} {shape : Shape} (h : ofLetter? letter = some shape) :
    shape.answer = zeroAnswer letter := by
  unfold ofLetter? at h
  split at h <;> cases h <;> rfl

/-- The registers of a stub are those that the returned value takes. -/
theorem lt_width_of_touched (shape : Shape) :
    ∀ i ∈ shape.instructions, ∀ r ∈ i.reads ++ i.writes, r < shape.width := by
  cases shape <;> decide

/-- A stub reads only what it has written. -/
theorem readsWritten_instructions (shape : Shape) : readsWritten [] shape.instructions = true := by
  cases shape <;> rfl

/-- It runs to its end with the answer of its shape. -/
theorem run_instructions (shape : Shape) (frame : Frame) (room : shape.width ≤ frame.length) :
    ∃ left, run shape.instructions frame = some (left, some shape.answer) := by
  cases shape with
  | void => exact ⟨frame, rfl⟩
  | zero | nullReference =>
    cases frame with
    | nil => cases room
    | cons w ws => exact ⟨0 :: ws, rfl⟩
  | wideZero =>
    match frame, room with
    | _ :: _ :: ws, _ => exact ⟨0 :: 0 :: ws, rfl⟩

end Shape

end StubJar.Stub

namespace StubJar.Dalvik

open StubJar.Stub

/-- The stub of a method has room for the zero of its result in front of the arguments,
and returns it there. -/
theorem Method.stubbed_answers {m n : Method} (embodied : m.flags.isBodiless = false)
    (made : m.stubbed = .ok n) :
    ∃ letter body is, m.ref.prototype.result.shorty? = some letter ∧ n.body = some body
      ∧ body.ins.toNat = m.ins ∧ body.registers.toNat = m.ins + (zeroAnswer letter).width
      ∧ body.outs = 0 ∧ body.tries = 0 ∧ body.instructions = .ok is
      ∧ (∀ i ∈ is, ∀ r ∈ i.reads ++ i.writes, r < body.registers.toNat - body.ins.toNat)
      ∧ readsWritten [] is = true
      ∧ ∀ frame : Frame, frame.length = body.registers.toNat →
          ∃ left, run is frame = some (left, some (zeroAnswer letter))
            ∧ ∀ r, body.registers.toNat - body.ins.toNat ≤ r → left[r]? = frame[r]? := by
  rcases Method.stubbed_eq_ok.mp made with ⟨bodiless, _⟩ | ⟨_, body, stub, rfl⟩
  · rw [embodied] at bodiless
    cases bodiless
  obtain ⟨shape, shaped, few, rfl⟩ := stubBody_eq_ok.mp stub
  obtain ⟨letter, known, shaped⟩ := Option.bind_eq_some_iff.mp shaped
  have answer := Shape.answer_of_letter shaped
  have width : (zeroAnswer letter).width = shape.width := by
    rw [← answer, Shape.width_answer]
  have narrow : shape.width ≤ 2 := by
    cases shape <;> decide
  rw [maxArgumentWidth] at few
  have ins : (UInt16.ofNat m.ins).toNat = m.ins := by
    rw [UInt16.toNat_ofNat']
    omega
  have registers : (UInt16.ofNat (m.ins + shape.width)).toNat = m.ins + shape.width := by
    rw [UInt16.toNat_ofNat']
    omega
  have free : m.ins + shape.width - m.ins = shape.width := Nat.add_sub_cancel_left _ _
  refine ⟨letter, _, shape.instructions, known, rfl, ins, ?_, rfl, rfl, shape.decodeAll_units,
    ?_, shape.readsWritten_instructions, ?_⟩
  · rw [registers, width]
  · rw [registers, ins, free]
    exact shape.lt_width_of_touched
  · intro frame size
    rw [registers] at size
    obtain ⟨left, returns⟩ := shape.run_instructions frame (by omega)
    rw [answer] at returns
    refine ⟨left, returns, fun r argument => run_other returns fun i mem written => ?_⟩
    rw [registers, ins, free] at argument
    have low := shape.lt_width_of_touched i mem r (List.mem_append_right _ written)
    exact absurd low (Nat.not_lt.mpr argument)

/-- A method with as many arguments as a call can pass returns a pair of zeros from a
frame of 257 registers. -/
theorem Method.stubbed_answers_widest :
    ∃ n body is, (takesPairs 127).flags.isBodiless = false ∧ (takesPairs 127).stubbed = .ok n
      ∧ n.body = some body ∧ body.ins.toNat = 255 ∧ body.registers.toNat = 257
      ∧ body.instructions = .ok is
      ∧ ∀ frame : Frame, frame.length = 257 →
          ∃ left, run is frame = some (left, some (.pair 0)) ∧ ∀ r, 2 ≤ r → left[r]? = frame[r]? := by
  have embodied : (takesPairs 127).flags.isBodiless = false := by decide
  have shaped : Shape.ofReturnType? ⟨"D"⟩ = some .wideZero := by decide
  have ins : (takesPairs 127).ins = 255 := by decide +kernel
  have stub := stubBody_eq_ok.mpr ⟨.wideZero, shaped, Nat.le_of_eq ins, rfl⟩
  have made := Method.stubbed_eq_ok.mpr (.inr ⟨embodied, _, stub, rfl⟩)
  obtain ⟨letter, body, is, known, has, arguments, registers, _, _, spelled, _, _, answers⟩ :=
    Method.stubbed_answers embodied made
  have double : letter = 'D' := Option.some.inj (known.symm.trans (by decide))
  rw [double] at registers answers
  rw [ins] at arguments registers
  refine ⟨_, body, is, embodied, made, has, arguments, registers, spelled, ?_⟩
  rw [registers, arguments] at answers
  exact answers

end StubJar.Dalvik
