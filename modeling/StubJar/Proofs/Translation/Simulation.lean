import StubJar.Proofs.Dalvik.LastWrites
import StubJar.Proofs.Translation.Pushing
import StubJar.Proofs.Translation.Registers
import StubJar.Proofs.Translation.StubCode

/-!
# Code does what its method does

A method concludes if its body is loads and one return behind them, which finds in registers
that the right loads were the last to write what the declared type asks for (`Concludes`).
Exactly such methods have code, where the pool has room for the constant that is returned, and
the code, run on an empty stack, hands back the bits that a run of the body answers with
(`Concludes.exists_code`, `Concludes.run_eq`).

The push is as short as can be with one exception, which is by choice: the pool is asked last,
so a number of two bytes is spelled even where it could be pushed from its slot in fewer bytes.
-/

namespace StubJar.Translation

open StubJar.Dalvik StubJar.ClassFile StubJar.ClassFile.ConstantPool
open StubJar.ClassFile.Resolved (Operand Outcome Puts Pushes Shortest Tells Tight readCode
  readInstruction runCode)

/-! ## Bodies that conclude -/

/-- The instruction hands back the outcome, as a type with the letter asks for, after the loads. -/
inductive Returns (loads : List Dalvik.Instruction) : Dalvik.Instruction → Char → Outcome → Prop
  | void : Returns loads .returnVoid 'V' ⟨.void, none⟩
  | int {r v letter} (held : NarrowAt loads r v) (mem : letter ∈ ['Z', 'B', 'S', 'C', 'I']) :
    Returns loads (.return32 r) letter ⟨.int, some (.constant (.int v))⟩
  | float {r v} (held : NarrowAt loads r v) :
    Returns loads (.return32 r) 'F' ⟨.float, some (.constant (.float v.toUInt32))⟩
  | long {r v} (held : PairAt loads r v) :
    Returns loads (.returnWide r) 'J' ⟨.long, some (.constant (.long v))⟩
  | double {r v} (held : PairAt loads r v) :
    Returns loads (.returnWide r) 'D' ⟨.double, some (.constant (.double v.toUInt64))⟩
  | null {r} (held : NarrowAt loads r 0) :
    Returns loads (.returnObject r) 'L' ⟨.reference, some .null⟩

/-- The body of the method is loads and one return behind them, which finds in its registers
what the declared type asks for. -/
structure Concludes (m : Method) (loads : List Dalvik.Instruction) (last : Dalvik.Instruction)
    (outcome : Outcome) : Prop where
  body : ∃ body, m.body = some body ∧ body.instructions = .ok (loads ++ [last])
  only : ∀ i ∈ loads, i.isLoad = true
  returns : ∃ letter, m.ref.prototype.result.shorty? = some letter ∧ Returns loads last letter outcome

/-! ## Loads and a return -/

section Code

variable {m : Method} {rs : Registers} {loads is : List Dalvik.Instruction}
  {i last : Dalvik.Instruction} {code : List ClassFile.Instruction} {p q : ConstantPool}

/-- A load makes no code. -/
theorem codeFrom_load (load : i.isLoad = true) :
    codeFrom m rs (i :: is) = codeFrom m (rs.load i) is := by
  cases i with
  | const4 | const16 | constWide16 => rfl
  | _ => cases load

/-- A return is the end of the code. -/
theorem codeFrom_return (other : i.isLoad = false) :
    codeFrom m rs (i :: is) p = (.ok code, q) ↔ is = [] ∧ returnCode m rs i p = (.ok code, q) := by
  have unfolded : codeFrom m rs (i :: is) = (do
      let code ← returnCode m rs i
      if is.isEmpty then return code else throw (.unreachableInstructions m.ref.render)) := by
    cases i with
    | const4 | const16 | constWide16 => cases other
    | _ => rfl
  rw [unfolded, PoolM.bind_eq_ok]
  cases is with
  | nil =>
    constructor
    · rintro ⟨made, r, run, same⟩
      cases same
      exact ⟨rfl, run⟩
    · rintro ⟨_, run⟩
      exact ⟨code, q, run, rfl⟩
  | cons j is =>
    constructor
    · rintro ⟨made, r, run, same⟩
      cases same
    · rintro ⟨same, _⟩
      cases same

/-- There is code exactly for loads and one return behind them, if there is code for that. -/
theorem codeFrom_eq_ok : codeFrom m rs is p = (.ok code, q) ↔
    ∃ loads last, is = loads ++ [last] ∧ (∀ i ∈ loads, i.isLoad = true) ∧ last.isLoad = false
      ∧ returnCode m (loads.foldl Registers.load rs) last p = (.ok code, q) := by
  induction is generalizing rs with
  | nil =>
    constructor
    · intro run
      cases run
    · rintro ⟨loads, last, same, _⟩
      cases loads <;> cases same
  | cons i is ih =>
    cases load : i.isLoad with
    | true =>
      rw [codeFrom_load load, ih]
      constructor
      · rintro ⟨loads, last, rfl, only, other, run⟩
        exact ⟨i :: loads, last, rfl, List.forall_mem_cons.mpr ⟨load, only⟩, other, run⟩
      · rintro ⟨loads, last, same, only, other, run⟩
        cases loads with
        | nil =>
          cases same
          rw [load] at other
          cases other
        | cons j loads =>
          cases same
          exact ⟨loads, last, rfl, (List.forall_mem_cons.mp only).2, other, run⟩
    | false =>
      rw [codeFrom_return load]
      constructor
      · rintro ⟨rfl, run⟩
        exact ⟨[], i, rfl, nofun, load, run⟩
      · rintro ⟨loads, last, same, only, other, run⟩
        cases loads with
        | nil =>
          cases same
          exact ⟨rfl, run⟩
        | cons j loads =>
          cases same
          rw [(List.forall_mem_cons.mp only).1] at load
          cases load

/-! ## Returning -/

/-- The instructions push the value of the outcome, if it has one, and return. -/
inductive HandsBack (q : ConstantPool) : List ClassFile.Instruction → Outcome → Prop
  | void : HandsBack q [.ret .void] ⟨.void, none⟩
  | value {i x} (puts : Puts q i x) : HandsBack q [i, .ret x.kind] ⟨x.kind, some x⟩

/-- What a register holds is pushed and returned. -/
theorem pushReturn_eq_ok {α : Type} {read : Translator α}
    {push : α → PoolM ClassFile.Fault ClassFile.Instruction} {kind : ReturnKind} :
    (do return [← push (← read), .ret kind] : Translator (List ClassFile.Instruction)) p = (.ok code, q)
      ↔ ∃ v r i, read p = (.ok v, r) ∧ push v r = (.ok i, q) ∧ [i, .ret kind] = code := by
  have lifted (v : α) (r : ConstantPool) : (push v : Translator ClassFile.Instruction) r
      = PoolM.mapFault Fault.classFile (push v) r := rfl
  rw [PoolM.bind_eq_ok]
  constructor
  · rintro ⟨v, r, found, rest⟩
    obtain ⟨i, r', made, same⟩ := PoolM.bind_eq_ok.mp rest
    rw [lifted, PoolM.mapFault] at made
    cases same
    refine ⟨v, r, i, found, ?_, rfl⟩
    rcases pushed : push v r with ⟨_ | j, r''⟩
    all_goals
      rw [pushed] at made
      cases made
    rfl
  · rintro ⟨v, r, i, found, made, rfl⟩
    refine ⟨v, r, found, PoolM.bind_eq_ok.mpr ⟨i, q, ?_, rfl⟩⟩
    rw [lifted, PoolM.mapFault, made]
    rfl

/-- A constant of 32 bits is found in a register exactly if the loads have left it there. -/
theorem Reflects.narrowAt_eq_ok (reflects : Reflects loads rs) (r : Register) (v : Int32)
    (q : ConstantPool) : narrowAt m rs r p = (.ok v, q) ↔ NarrowAt loads r v ∧ q = p :=
  Translation.narrowAt_eq_ok.trans (and_congr_left fun _ => reflects.narrow r v)

/-- So is one of 64 bits in its pair. -/
theorem Reflects.wideAt_eq_ok (reflects : Reflects loads rs) (r : Register) (v : Int64)
    (q : ConstantPool) : wideAt m rs r p = (.ok v, q) ↔ PairAt loads r v ∧ q = p :=
  Translation.wideAt_eq_ok.trans (and_congr_left fun _ => reflects.wide r v)

section Pushing

variable {α : Type} {read : Translator α} {Found : α → Prop}
  {push : α → PoolM ClassFile.Fault ClassFile.Instruction} {make : α → Operand}

/-- What is pushed and returned was found, and the pool had room for it. -/
theorem exists_pushed {kind : ReturnKind} (reads : ∀ v r, read p = (.ok v, r) ↔ Found v ∧ r = p)
    (supplies : ∀ v, Supplies p (push v) (make v))
    (run : (do return [← push (← read), .ret kind] : Translator _) p = (.ok code, q)) :
    ∃ v, Found v ∧ ∀ x ∈ some (make v), HasRoom p x := by
  obtain ⟨v, r, i, found, made, _⟩ := pushReturn_eq_ok.mp run
  obtain ⟨holds, rfl⟩ := (reads v r).mp found
  refine ⟨v, holds, ?_⟩
  rintro _ ⟨⟩
  exact (supplies v).room i q made

/-- What is found and has room is pushed and returned. -/
theorem exists_pushReturn (reads : ∀ v r, read p = (.ok v, r) ↔ Found v ∧ r = p)
    (supplies : ∀ v, Supplies p (push v) (make v)) {v : α} (found : Found v)
    (room : ∀ x ∈ some (make v), HasRoom p x) :
    ∃ code q, (do return [← push (← read), .ret (make v).kind] : Translator _) p = (.ok code, q)
      ∧ Settled q ∧ Grown p q ∧ HandsBack q code ⟨(make v).kind, some (make v)⟩ := by
  obtain ⟨i, q, made, settled, grown, puts⟩ := (supplies v).pushes (room _ rfl)
  refine ⟨_, q, pushReturn_eq_ok.mpr ⟨v, p, i, ?_, made, rfl⟩, settled, grown, .value puts⟩
  exact (reads v p).mpr ⟨found, rfl⟩

end Pushing

/-- Code for a return there is only if its registers hold what the declared type asks for, and
the pool has room for that. -/
theorem exists_returns (settled : Settled p) (reflects : Reflects loads rs)
    (run : returnCode m rs last p = (.ok code, q)) :
    ∃ letter outcome, m.ref.prototype.result.shorty? = some letter
      ∧ Returns loads last letter outcome ∧ ∀ x ∈ outcome.value, HasRoom p x := by
  obtain ⟨step, form⟩ : ∃ step, returnCode m rs last = step := ⟨_, rfl⟩
  rw [form] at run
  unfold returnCode at form
  dsimp only at form
  split at form <;> subst form
  case h_1 known => exact ⟨_, _, known, .void, nofun⟩
  case h_2 r known =>
    have supplies (v : Int32) := floatPush_supplies settled v.toUInt32
    obtain ⟨v, held, room⟩ := exists_pushed (reflects.narrowAt_eq_ok r) supplies run
    exact ⟨_, _, known, .float held, room⟩
  case h_3 r known =>
    obtain ⟨v, held, room⟩ := exists_pushed (reflects.wideAt_eq_ok r) (longPush_supplies settled) run
    exact ⟨_, _, known, .long held, room⟩
  case h_4 r known =>
    have supplies (v : Int64) := doublePush_supplies settled v.toUInt64
    obtain ⟨v, held, room⟩ := exists_pushed (reflects.wideAt_eq_ok r) supplies run
    exact ⟨_, _, known, .double held, room⟩
  case h_5 r known =>
    obtain ⟨v, _, found, rest⟩ := PoolM.bind_eq_ok.mp run
    obtain ⟨held, rfl⟩ := (reflects.narrowAt_eq_ok r v _).mp found
    split at rest
    · rename_i zero
      subst zero
      refine ⟨_, _, known, .null held, ?_⟩
      rintro _ ⟨⟩
      exact nofun
    · cases rest
  case h_6 r letter _ known =>
    split at run
    · rename_i mem
      obtain ⟨v, held, room⟩ := exists_pushed (reflects.narrowAt_eq_ok r) (intPush_supplies settled) run
      exact ⟨_, _, known, .int held mem, room⟩
    · cases run
  case h_7 => cases run

/-- There is code for a return whose registers hold what the declared type asks for, if the pool
has room for that. -/
theorem Returns.exists_code {letter : Char} {outcome : Outcome} (settled : Settled p)
    (reflects : Reflects loads rs) (known : m.ref.prototype.result.shorty? = some letter)
    (returns : Returns loads last letter outcome) (room : ∀ x ∈ outcome.value, HasRoom p x) :
    ∃ code q, returnCode m rs last p = (.ok code, q) ∧ Settled q ∧ Grown p q
      ∧ HandsBack q code outcome := by
  cases returns with
  | void =>
    rw [returnCode_void known]
    exact ⟨_, p, rfl, settled, .refl p, .void⟩
  | @int r v _ held mem =>
    rw [returnCode_int known mem]
    exact exists_pushReturn (reflects.narrowAt_eq_ok r) (intPush_supplies settled) held room
  | @float r v held =>
    rw [returnCode_float known]
    have supplies (v : Int32) := floatPush_supplies settled v.toUInt32
    exact exists_pushReturn (reflects.narrowAt_eq_ok r) supplies held room
  | @long r v held =>
    rw [returnCode_long known]
    exact exists_pushReturn (reflects.wideAt_eq_ok r) (longPush_supplies settled) held room
  | @double r v held =>
    rw [returnCode_double known]
    have supplies (v : Int64) := doublePush_supplies settled v.toUInt64
    exact exists_pushReturn (reflects.wideAt_eq_ok r) supplies held room
  | @null r held =>
    have puts : Puts p .aconstNull .null :=
      Resolved.puts_bare settled.toWellFormed 0x01 rfl (by decide) rfl rfl
    exact ⟨_, p, returnCode_null known ((reflects.narrow r 0).mpr held), settled, .refl p, .value puts⟩

end Code

/-! ## The whole body -/

/-- What the code of a method does: it pushes the value of the outcome in as few bytes as can
be, if there is one, and hands it back; it needs as much of the stack as the value takes, and as
many locals as there are words of arguments. -/
structure Delivers (q : ConstantPool) (m : Method) (outcome : Outcome) (code : Code) : Prop where
  bytes : ∃ push, code.code = push ++ [UInt8.ofNat outcome.kind.opcode]
    ∧ match outcome.value with
      | some x => Tight q.constants.toList push x
      | none => push = []
  depth : code.maxStack = outcome.slots
  locals : code.maxLocals = m.ins
  bare : code.attributes = []
  runs : ∃ is, Tells q readCode code.encode ⟨outcome.slots, m.ins, is, [], []⟩
    ∧ runCode [] is = some outcome

section Methods

variable {m : Method} {p q : ConstantPool} {code : List ClassFile.Instruction} {outcome : Outcome}

/-- No instruction of a stub has more than three bytes. -/
theorem length_encode_le (i : ClassFile.Instruction) : i.encode.length ≤ 3 := by
  rw [ClassFile.Instruction.length_encode]
  cases i with
  | ldc n =>
    rw [ClassFile.Instruction.size]
    split <;> decide
  | _ => simp [ClassFile.Instruction.size]

/-- No operand takes more than two words. -/
theorem slots_le (x : Operand) : x.slots ≤ 2 := by
  unfold Operand.slots
  split
  · exact Nat.le_succ 1
  · split <;> decide

/-- A return is read back. -/
theorem tells_ret (kind : ReturnKind) :
    (ClassFile.Instruction.ret kind).encode ≠ [] ∧ Tells q readInstruction
      (ClassFile.Instruction.ret kind).encode (.plain kind.opcode []) := by
  refine ⟨List.cons_ne_nil _ _, Resolved.tells_bare kind.opcode ?_⟩
  cases kind <;> decide

/-- Code that hands back has up to four bytes. -/
theorem HandsBack.short (h : HandsBack q code outcome) :
    (code.flatMap ClassFile.Instruction.encode).length ≤ 4 := by
  cases h with
  | void => decide
  | @value i x _ =>
    rw [List.flatMap_cons, List.length_append]
    exact Nat.add_le_add (length_encode_le i) (Nat.le_refl 1)

theorem HandsBack.encodeCode_eq (h : HandsBack q code outcome) :
    encodeCode code = .ok (code.flatMap ClassFile.Instruction.encode) := by
  have short := h.short
  exact ClassFile.Instruction.encodeCode_eq_ok.mpr ⟨by omega, rfl⟩

/-- The stack is as deep as what is handed back. -/
theorem HandsBack.depth (h : HandsBack q code outcome) : stackDepth code = outcome.slots := by
  cases h with
  | void => rfl
  | @value i x puts =>
    have pushed : stackDepth [i, .ret x.kind] = i.pushed := Nat.zero_add i.pushed
    exact pushed.trans puts.slots

/-- The bytes are read as instructions that hand the outcome back. -/
theorem HandsBack.exists_instructions (h : HandsBack q code outcome) :
    ∃ xs, List.Forall₂ (fun i x => i.encode ≠ [] ∧ Tells q readInstruction i.encode x) code xs
      ∧ runCode [] xs = some outcome := by
  cases h with
  | void => exact ⟨_, .cons (tells_ret .void) .nil, Resolved.runCode_void⟩
  | @value i x puts =>
    obtain ⟨y, tells, pushed⟩ := puts.tells
    have some_byte : i.encode ≠ [] := by
      intro empty
      have pushes := puts.tight.1
      rw [empty] at pushes
      exact Resolved.not_pushes_nil pushes
    exact ⟨_, .cons ⟨some_byte, tells⟩ (.cons (tells_ret x.kind) .nil), Resolved.runCode_return pushed⟩

/-- With the arguments as locals, code that hands back delivers. -/
theorem HandsBack.delivers (h : HandsBack q code outcome) (ins : m.ins < 2 ^ 16) :
    Delivers q m outcome ⟨stackDepth code, m.ins, code.flatMap ClassFile.Instruction.encode, []⟩ := by
  have short := h.short
  have few : outcome.slots < 2 ^ 16 := by
    unfold Outcome.slots
    split
    · rename_i x _
      exact Nat.lt_of_le_of_lt (slots_le x) (by decide)
    · decide
  obtain ⟨xs, each, ran⟩ := h.exists_instructions
  have tells : Tells q readCode (Code.encode ⟨stackDepth code, m.ins,
      code.flatMap ClassFile.Instruction.encode, []⟩) _ :=
    Resolved.tells_code each rfl (Nat.lt_of_le_of_lt short (by decide)) rfl
  rw [h.depth, Nat.mod_eq_of_lt few, Nat.mod_eq_of_lt ins, ← h.depth] at tells
  refine ⟨?_, h.depth, rfl, rfl, xs, h.depth ▸ tells, ran⟩
  cases h with
  | void => exact ⟨[], rfl, rfl⟩
  | @value i x puts => exact ⟨i.encode, rfl, puts.tight⟩

/-- The code of a method is made of its instructions only. -/
theorem codeFrom_of_codeOf {code : Code} (run : codeOf m p = (.ok code, q)) :
    ∃ body is made r, m.body = some body ∧ body.instructions = .ok is
      ∧ codeFrom m {} is p = (.ok made, r) := by
  unfold codeOf at run
  cases has : m.body with
  | none =>
    rw [has] at run
    cases run
  | some body =>
    rw [has] at run
    dsimp only at run
    cases decoded : body.instructions with
    | error reason =>
      rw [decoded] at run
      cases run
    | ok is =>
      rw [decoded] at run
      obtain ⟨made, r, found, _⟩ := PoolM.bind_eq_ok.mp run
      exact ⟨body, is, made, r, rfl, decoded, found⟩

/-- A method that has code concludes, and the pool had room for its outcome. -/
theorem exists_concludes {code : Code} (settled : Settled p) (run : codeOf m p = (.ok code, q)) :
    ∃ loads last outcome, Concludes m loads last outcome ∧ ∀ x ∈ outcome.value, HasRoom p x := by
  obtain ⟨body, is, made, r, has, decoded, found⟩ := codeFrom_of_codeOf run
  obtain ⟨loads, last, rfl, only, _, returned⟩ := codeFrom_eq_ok.mp found
  obtain ⟨letter, outcome, known, returns, room⟩ :=
    exists_returns settled (reflects_loads only) returned
  exact ⟨loads, last, outcome, ⟨⟨body, has, decoded⟩, only, letter, known, returns⟩, room⟩

/-- A return is no load. -/
theorem Returns.isLoad {loads : List Dalvik.Instruction} {last : Dalvik.Instruction} {letter : Char}
    (h : Returns loads last letter outcome) : last.isLoad = false := by
  cases h <;> rfl

/-- A method that concludes has code, which does what the method does. -/
theorem Concludes.exists_code {loads : List Dalvik.Instruction} {last : Dalvik.Instruction}
    (h : Concludes m loads last outcome) (settled : Settled p)
    (room : ∀ x ∈ outcome.value, HasRoom p x) (ins : m.ins < 2 ^ 16) :
    ∃ code q, codeOf m p = (.ok code, q) ∧ Settled q ∧ Grown p q ∧ Delivers q m outcome code := by
  obtain ⟨⟨body, has, decoded⟩, only, letter, known, returns⟩ := h
  obtain ⟨code, q, returned, settled', grown, back⟩ :=
    returns.exists_code settled (reflects_loads only) known room
  have made : codeFrom m {} (loads ++ [last]) p = (.ok code, q) :=
    codeFrom_eq_ok.mpr ⟨loads, last, rfl, only, returns.isLoad, returned⟩
  exact ⟨_, q, codeOf_of_codeFrom has decoded made back.encodeCode_eq, settled', grown,
    back.delivers ins⟩

/-! ## Running both -/

/-- The answer that has the bits of a value; the null reference is zero. -/
def answer? : Option Operand → Option Answer
  | none => some .nothing
  | some .null => some (.reference 0)
  | some (.constant (.int v)) => some (.word v.toUInt32)
  | some (.constant (.float bits)) => some (.word bits)
  | some (.constant (.long v)) => some (.pair v.toUInt64)
  | some (.constant (.double bits)) => some (.pair bits)
  | some (.constant (.string _)) => none

/-- Behind a frame that mirrors the loads, the return answers with the bits of the outcome. -/
theorem Returns.step_eq {loads : List Dalvik.Instruction} {last : Dalvik.Instruction} {letter : Char}
    (h : Returns loads last letter outcome) {g : Frame} (mirrors : Mirrors g loads) :
    ∃ answer, step g last = some (g, some answer) ∧ answer? outcome.value = some answer := by
  cases h with
  | void => exact ⟨_, rfl, rfl⟩
  | @int r v _ held _ | @float r v held =>
    refine ⟨_, ?_, rfl⟩
    rw [step, mirrors.narrow r v held]
    rfl
  | @long r v held | @double r v held =>
    refine ⟨_, ?_, rfl⟩
    rw [step, mirrors.lower r v held, mirrors.upper r v held]
    exact congrArg (fun w => some (g, some (Answer.pair w))) (joined_words v.toUInt64)
  | @null r held =>
    refine ⟨_, ?_, rfl⟩
    rw [step, mirrors.narrow r 0 held]
    rfl

/-- A run of the body answers with the bits of the outcome, whatever was in the frame. -/
theorem Concludes.run_eq {loads : List Dalvik.Instruction} {last : Dalvik.Instruction}
    (h : Concludes m loads last outcome) {f : Frame}
    (room : ∀ i ∈ loads, ∀ r ∈ i.writes, r < f.length) :
    ∃ g answer, run (loads ++ [last]) f = some (g, some answer)
      ∧ answer? outcome.value = some answer := by
  obtain ⟨letter, _, returns⟩ := h.returns
  obtain ⟨g, ran, _, mirrors⟩ := run_loads h.only room
  obtain ⟨answer, stepped, same⟩ := returns.step_eq mirrors
  refine ⟨g, answer, ?_, same⟩
  rw [run_append ran, run, stepped]

/-- There is code for a method exactly if its body is loads and one return behind them that
finds what the declared type asks for in registers that were last written by the right loads,
and the pool has room for the constant, for which two free slots are enough. Run on an empty
stack, the code pushes the constant in one instruction, as short as can be but for numbers of
two bytes, and returns it by its kind; a run of the body answers with the same bits. -/
theorem codeOf_simulates {m : Method} {p : ConstantPool} (settled : Settled p)
    (ins : m.ins < 2 ^ 16) :
    ((∃ code q, codeOf m p = (.ok code, q)) ↔
      ∃ loads last outcome, Concludes m loads last outcome ∧ ∀ x ∈ outcome.value, HasRoom p x)
    ∧ (p.next + 2 ≤ limit → ∀ x, HasRoom p x)
    ∧ ∀ loads last outcome, Concludes m loads last outcome →
        ((∀ x ∈ outcome.value, HasRoom p x) →
          ∃ code q, codeOf m p = (.ok code, q) ∧ Settled q ∧ Grown p q ∧ Delivers q m outcome code)
        ∧ ∀ f : Frame, (∀ i ∈ loads, ∀ r ∈ i.writes, r < f.length) →
            ∃ g answer, run (loads ++ [last]) f = some (g, some answer)
              ∧ answer? outcome.value = some answer := by
  refine ⟨⟨?_, ?_⟩, hasRoom_of_two_slots, ?_⟩
  · rintro ⟨code, q, run⟩
    exact exists_concludes settled run
  · rintro ⟨loads, last, outcome, concludes, room⟩
    obtain ⟨code, q, run, _⟩ := concludes.exists_code settled room ins
    exact ⟨code, q, run⟩
  · intro loads last outcome concludes
    exact ⟨fun room => concludes.exists_code settled room ins, fun f room => concludes.run_eq room⟩

end Methods

/-- A method without arguments that runs the code units. -/
def ofUnits (result : Descriptor) (units : List UInt16) : Method :=
  ⟨⟨⟨"LA;"⟩, "m", ⟨result, []⟩⟩, ⟨Flag.staticBit⟩, [], [], some ⟨3, 0, 0, 0, units⟩⟩

/-- Loads the pair 0, 1, then the pair 1, 2, and returns the second one. -/
def overlapping : Method := ofUnits ⟨"D"⟩ [0x0016, 1, 0x0116, 5, 0x0110]

/-- A pool that has a number of two bytes at the first slot. -/
def thousandPool : ConstantPool := ofConstants [.integer 1000]

theorem settled_thousandPool : Settled thousandPool := settled_empty.push nofun (by decide) trivial

/-- The second pair destroys the first one, and is returned as a `double` from the second slot. -/
theorem codeOf_simulates_overlapping :
    Settled thousandPool ∧ overlapping.ins < 2 ^ 16
    ∧ (∃ code q, codeOf overlapping thousandPool = (.ok code, q)
        ∧ Delivers q overlapping ⟨.double, some (.constant (.double 5))⟩ code)
    ∧ ∃ g, run [.constWide16 0 1, .constWide16 1 5, .returnWide 1] [7, 7, 7]
        = some (g, some (.pair 5)) := by
  have ins : overlapping.ins < 2 ^ 16 := by decide
  have concludes : Concludes overlapping [.constWide16 0 1, .constWide16 1 5] (.returnWide 1)
      ⟨.double, some (.constant (.double 5))⟩ := by
    refine ⟨⟨_, rfl, rfl⟩, by decide, 'D', by decide, ?_⟩
    have pair : PairAt ([.constWide16 0 1] ++ [.constWide16 1 5]) 1 5 :=
      pairAt_append.mpr (.inl ⟨5, rfl, by decide⟩)
    exact .double pair
  obtain ⟨_, enough, simulates⟩ := codeOf_simulates settled_thousandPool ins
  obtain ⟨emits, runs⟩ := simulates _ _ _ concludes
  obtain ⟨code, q, run, _, _, delivers⟩ := emits fun x _ => enough (by decide) x
  obtain ⟨g, answer, ran, same⟩ := runs [7, 7, 7] (by decide)
  cases same
  exact ⟨settled_thousandPool, ins, ⟨code, q, run, delivers⟩, g, ran⟩

/-- Returns a number of two bytes. -/
def thousand : Method := ofUnits ⟨"I"⟩ [0x0013, 1000, 0x000F]

/-- A number of two bytes is spelled even where the pool has it at a slot of one byte, from
which fewer bytes would push it. -/
theorem codeOf_not_shortest :
    Settled thousandPool ∧ thousandPool.next + 2 ≤ limit ∧ thousand.ins < 2 ^ 16
    ∧ codeOf thousand thousandPool = (.ok ⟨1, 0, [0x11, 0x03, 0xE8, 0xAC], []⟩, thousandPool)
    ∧ Pushes thousandPool.constants.toList [0x11, 0x03, 0xE8] (.constant (.int 1000))
    ∧ Pushes thousandPool.constants.toList [0x12, 0x01] (.constant (.int 1000))
    ∧ ¬ Shortest thousandPool.constants.toList [0x11, 0x03, 0xE8] (.constant (.int 1000)) := by
  have held : (Registers.load {} (.const16 0 1000))[0]? = some (.narrow 1000) := by
    rw [Registers.load, Registers.getElem?_write]
    exact if_pos rfl
  have spelled : returnCode thousand (Registers.load {} (.const16 0 1000)) (.return32 0) thousandPool
      = (.ok [.sipush 1000, .ret .int], thousandPool) := by
    rw [returnCode_int rfl (by decide)]
    exact pushReturn_eq_ok.mpr ⟨_, _, _, narrowAt_eq_ok.mpr ⟨held, rfl⟩, rfl, rfl⟩
  have made : codeFrom thousand {} [.const16 0 1000, .return32 0] thousandPool
      = (.ok [.sipush 1000, .ret .int], thousandPool) :=
    codeFrom_eq_ok.mpr ⟨[.const16 0 1000], .return32 0, rfl, by decide, rfl, spelled⟩
  have loaded : Pushes thousandPool.constants.toList [0x12, 0x01] (.constant (.int 1000)) :=
    ⟨.load 0x12 (.int 1000), rfl, rfl⟩
  refine ⟨settled_thousandPool, by decide, by decide, codeOf_of_codeFrom rfl rfl made rfl,
    ⟨_, rfl, rfl⟩, loaded, ?_⟩
  rintro ⟨_, least⟩
  exact absurd (least _ loaded) (by decide)

end StubJar.Translation
