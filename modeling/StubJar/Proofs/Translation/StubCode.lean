import StubJar.Proofs.ClassFile.CodeArrays
import StubJar.Proofs.ClassFile.Pool
import StubJar.Proofs.Stub.Bodies
import StubJar.Translation.Body

/-!
# The code of stubs

A stub is translated without any constant of the pool, and never fails
(`codeOf_stub`): what it loads is zero, which every return has a push for.
-/

namespace StubJar.Translation

open StubJar.Dalvik StubJar.ClassFile StubJar.Stub

/-- The bytes of the code of a stub. -/
def stubBytes : Char → List UInt8
  | 'V' => [0xB1]
  | 'F' => [0x0B, 0xAE]
  | 'J' => [0x09, 0xAD]
  | 'D' => [0x0E, 0xAF]
  | 'L' => [0x01, 0xB0]
  | _ => [0x03, 0xAC]

/-- How many slots of the operand stack a stub needs. -/
def stubDepth : Char → Nat
  | 'V' => 0
  | 'J' | 'D' => 2
  | _ => 1

/-- The instructions are those of a stub for the letter of the type that is returned. -/
structure ReturnsZero (letter : Char) (code : List ClassFile.Instruction) : Prop where
  bytes : code.flatMap ClassFile.Instruction.encode = stubBytes letter
  depth : stackDepth code = stubDepth letter

/-- The code of the stub of a method. -/
def stubCode (letter : Char) (m : Method) : Code := ⟨stubDepth letter, m.ins, stubBytes letter, []⟩

/-- The method has the code of the stub that its result calls for. -/
structure Stubbed (m : Method) (letter : Char) : Prop where
  known : m.ref.prototype.result.shorty? = some letter
  few : m.ins ≤ maxArgumentWidth
  body : ∃ shape body, Shape.ofLetter? letter = some shape ∧ m.body = some body
    ∧ body.units = shape.units

theorem held_narrow : (Registers.write {} 0 (.narrow 0))[0]? = some (.narrow 0) := by
  rw [Registers.write, Std.HashMap.getElem?_empty]
  exact Std.HashMap.getElem?_insert_self

theorem held_wide :
    (Registers.write (Registers.write {} 0 (.wide 0)) 1 .upperHalf)[0]? = some (.wide 0) := by
  have first : Registers.write {} 0 (.wide 0) = Std.HashMap.insert {} 0 (.wide 0) := by
    rw [Registers.write, Std.HashMap.getElem?_empty]
  have other : (Std.HashMap.insert ({} : Registers) 0 (.wide 0))[1]? = none := by
    rw [Std.HashMap.getElem?_insert, if_neg (by decide), Std.HashMap.getElem?_empty]
  rw [first, Registers.write, other]
  change ((Std.HashMap.insert ({} : Registers) 0 (.wide 0)).insert 1 .upperHalf)[0]? = _
  rw [Std.HashMap.getElem?_insert, if_neg (by decide), Std.HashMap.getElem?_insert_self]

/-- The letters for which there are stubs. -/
theorem letter_cases {letter : Char} {shape : Shape} (h : Shape.ofLetter? letter = some shape) :
    (letter = 'V' ∧ shape = .void)
      ∨ (letter ∈ ['Z', 'B', 'S', 'C', 'I', 'F'] ∧ shape = .zero)
      ∨ (letter ∈ ['J', 'D'] ∧ shape = .wideZero) ∨ (letter = 'L' ∧ shape = .nullReference) := by
  unfold Shape.ofLetter? at h
  split at h <;> simp_all

section Returns

variable {m : Method} {letter : Char} {rs : Registers} {p q : ConstantPool} {r : Register}

/-- A number is found in a register that holds one. -/
theorem narrowAt_eq_ok {v : Int32} :
    narrowAt m rs r p = (.ok v, q) ↔ rs[r]? = some (.narrow v) ∧ q = p := by
  constructor
  · intro run
    rw [narrowAt] at run
    rcases found : rs[r]? with _ | _ | _ | _
    all_goals
      rw [found] at run
      cases run
    exact ⟨rfl, rfl⟩
  · rintro ⟨found, rfl⟩
    rw [narrowAt, found]
    rfl

/-- A wide one is found in the first of its registers. -/
theorem wideAt_eq_ok {v : Int64} :
    wideAt m rs r p = (.ok v, q) ↔ rs[r]? = some (.wide v) ∧ q = p := by
  constructor
  · intro run
    rw [wideAt] at run
    rcases found : rs[r]? with _ | _ | _ | _
    all_goals
      rw [found] at run
      cases run
    exact ⟨rfl, rfl⟩
  · rintro ⟨found, rfl⟩
    rw [wideAt, found]
    rfl

/-- Nothing is returned by a return alone. -/
theorem returnCode_void (known : m.ref.prototype.result.shorty? = some 'V') :
    returnCode m rs .returnVoid = return [.ret .void] := by
  unfold returnCode
  dsimp only
  rw [known]
  rfl

/-- Whatever fits a word is returned as a number. -/
theorem returnCode_int (known : m.ref.prototype.result.shorty? = some letter)
    (mem : letter ∈ ['Z', 'B', 'S', 'C', 'I']) :
    returnCode m rs (.return32 r) = do
      let v ← narrowAt m rs r
      return [← intPush v, .ret .int] := by
  simp only [List.mem_cons, List.not_mem_nil, or_false] at mem
  unfold returnCode
  dsimp only
  rw [known]
  rcases mem with rfl | rfl | rfl | rfl | rfl
  all_goals rfl

/-- The bits of a float are returned as a float. -/
theorem returnCode_float (known : m.ref.prototype.result.shorty? = some 'F') :
    returnCode m rs (.return32 r) = do
      let v ← narrowAt m rs r
      return [← floatPush v.toUInt32, .ret .float] := by
  unfold returnCode
  dsimp only
  rw [known]
  rfl

/-- A wide number is returned as one. -/
theorem returnCode_long (known : m.ref.prototype.result.shorty? = some 'J') :
    returnCode m rs (.returnWide r) = do
      let v ← wideAt m rs r
      return [← longPush v, .ret .long] := by
  unfold returnCode
  dsimp only
  rw [known]
  rfl

/-- Its bits are returned as a double. -/
theorem returnCode_double (known : m.ref.prototype.result.shorty? = some 'D') :
    returnCode m rs (.returnWide r) = do
      let v ← wideAt m rs r
      return [← doublePush v.toUInt64, .ret .double] := by
  unfold returnCode
  dsimp only
  rw [known]
  rfl

/-- Of the references, the null reference alone can be returned. -/
theorem returnCode_null (known : m.ref.prototype.result.shorty? = some 'L')
    (held : rs[r]? = some (.narrow 0)) :
    returnCode m rs (.returnObject r) p = (.ok [.aconstNull, .ret .reference], p) := by
  unfold returnCode
  rw [known]
  exact PoolM.bind_eq_ok.mpr ⟨0, p, narrowAt_eq_ok.mpr ⟨held, rfl⟩, rfl⟩

end Returns

/-- The code of a stub returns the zero of its letter, and the pool stays as it is. -/
theorem codeFrom_stub {m : Method} {letter : Char} {shape : Shape}
    (known : m.ref.prototype.result.shorty? = some letter)
    (shaped : Shape.ofLetter? letter = some shape) (p : ConstantPool) :
    ∃ code, codeFrom m {} shape.instructions p = (.ok code, p) ∧ ReturnsZero letter code := by
  -- a single return makes the code, which nothing stands behind
  have last {rs : Registers} {i : Dalvik.Instruction} {made : List ClassFile.Instruction}
      (code : returnCode m rs i p = (.ok made, p)) :
      (returnCode m rs i >>= fun code =>
        if ([] : List Dalvik.Instruction).isEmpty then return code
        else throw (.unreachableInstructions m.ref.render)) p = (.ok made, p) := by
    rw [PoolM.bind_run, code]
    rfl
  have run {α : Type} {rs : Registers} {i : Dalvik.Instruction} {read : Translator α} {zero : α}
      {next : α → Translator (List ClassFile.Instruction)} {code : List ClassFile.Instruction}
      (same : returnCode m rs i = read >>= next) (found : read p = (.ok zero, p))
      (made : next zero p = (.ok code, p)) : returnCode m rs i p = (.ok code, p) := by
    rw [same]
    exact PoolM.bind_eq_ok.mpr ⟨zero, p, found, made⟩
  have narrow : narrowAt m (Registers.write {} 0 (.narrow 0)) 0 p = (.ok 0, p) :=
    narrowAt_eq_ok.mpr ⟨held_narrow, rfl⟩
  have wide : wideAt m (Registers.write (Registers.write {} 0 (.wide 0)) 1 .upperHalf) 0 p
      = (.ok 0, p) := wideAt_eq_ok.mpr ⟨held_wide, rfl⟩
  rcases letter_cases shaped with ⟨rfl, rfl⟩ | ⟨mem, rfl⟩ | ⟨mem, rfl⟩ | ⟨rfl, rfl⟩
  · exact ⟨_, last (by rw [returnCode_void known]; rfl), rfl, rfl⟩
  · rcases List.mem_append.mp (show letter ∈ ['Z', 'B', 'S', 'C', 'I'] ++ ['F'] from mem) with int | float
    · refine ⟨_, last (run (returnCode_int known int) narrow rfl), ?_⟩
      simp only [List.mem_cons, List.not_mem_nil, or_false] at int
      rcases int with rfl | rfl | rfl | rfl | rfl <;> exact ⟨rfl, rfl⟩
    · obtain rfl := List.mem_singleton.mp float
      exact ⟨_, last (run (returnCode_float known) narrow rfl), rfl, rfl⟩
  · simp only [List.mem_cons, List.not_mem_nil, or_false] at mem
    rcases mem with rfl | rfl
    · exact ⟨_, last (run (returnCode_long known) wide rfl), rfl, rfl⟩
    · exact ⟨_, last (run (returnCode_double known) wide rfl), rfl, rfl⟩
  · exact ⟨_, last (returnCode_null known held_narrow), rfl, rfl⟩

theorem length_stubBytes (letter : Char) : (stubBytes letter).length ≤ 2 := by
  unfold stubBytes
  split <;> decide

theorem stubDepth_le (letter : Char) : stubDepth letter ≤ 2 := by
  unfold stubDepth
  split <;> decide

/-- The code of a method is that of its instructions. -/
theorem codeOf_of_codeFrom {m : Method} {body : Body} {is : List Dalvik.Instruction}
    {code : List ClassFile.Instruction} {bytes : List UInt8} {p q : ConstantPool}
    (has : m.body = some body) (instructions : body.instructions = .ok is)
    (made : codeFrom m {} is p = (.ok code, q)) (short : encodeCode code = .ok bytes) :
    codeOf m p = (.ok ⟨stackDepth code, m.ins, bytes, []⟩, q) := by
  rw [codeOf, has]
  dsimp only
  rw [instructions]
  dsimp only
  rw [PoolM.bind_run, made]
  dsimp only
  rw [short]
  rfl

/-- The code of a stub is made without the pool. -/
theorem codeOf_stub {m : Method} {letter : Char} (h : Stubbed m letter) (p : ConstantPool) :
    codeOf m p = (.ok (stubCode letter m), p) := by
  obtain ⟨shape, body, shaped, has, units⟩ := h.body
  have instructions : body.instructions = .ok shape.instructions := by
    rw [Body.instructions, units, Shape.decodeAll_units]
  obtain ⟨code, made, zero⟩ := codeFrom_stub h.known shaped p
  have short : encodeCode code = .ok (stubBytes letter) := by
    have few := length_stubBytes letter
    rw [← zero.bytes] at few ⊢
    exact ClassFile.Instruction.encodeCode_eq_ok.mpr ⟨by omega, rfl⟩
  have run := codeOf_of_codeFrom has instructions made short
  rwa [zero.depth] at run

end StubJar.Translation
