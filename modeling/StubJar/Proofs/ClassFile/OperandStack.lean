import StubJar.Proofs.ClassFile.Counts
import StubJar.Proofs.ClassFile.Requests

/-!
# The operand stack

Code pushes values onto the operand stack until it returns the topmost, which must be of the
kind of the return (`runCode`). What an instruction pushes is told by its opcode and its
operand (`Instruction.pushed?`).

`Puts p i x` says of an instruction that is written while a pool grows that it is read as one
that pushes the value, takes up as much of the stack as the value does, and that no other
instruction pushes the value in fewer bytes. There is one exception (`Tight`): a number of two
bytes is spelled in the code, even if the pool has it at a slot of one byte.
-/

namespace StubJar.ClassFile.Resolved

open StubJar.Bytes StubJar.ClassFile.ConstantPool
open StubJar.ClassFile.Grammar (Reader Spells text? readSlot text?_eq bind_apply)

/-! ## Values and their instructions -/

/-- A value on the operand stack. -/
inductive Operand where
  | null
  | constant (l : Literal)
deriving DecidableEq, Repr

namespace Operand

/-- How many slots of the operand stack the value takes. -/
def slots : Operand → Nat
  | null => 1
  | constant l => if l.isWide then 2 else 1

/-- The kind of the return that hands the value back. -/
def kind : Operand → ReturnKind
  | constant (.int _) => .int
  | constant (.float _) => .float
  | constant (.long _) => .long
  | constant (.double _) => .double
  | constant (.string _) | null => .reference

/-- Whether there is an opcode for the value alone. -/
def HasOpcode : Operand → Prop
  | null => True
  | constant (.int v) => -1 ≤ v.toInt ∧ v.toInt ≤ 5
  | constant (.float bits) => bits = 0 ∨ bits = 0x3F800000 ∨ bits = 0x40000000
  | constant (.long v) => v = 0 ∨ v = 1
  | constant (.double bits) => bits = 0 ∨ bits = 0x3FF0000000000000
  | constant (.string _) => False

instance : DecidablePred HasOpcode
  | null => inferInstanceAs (Decidable True)
  | constant (.int v) => inferInstanceAs (Decidable (-1 ≤ v.toInt ∧ v.toInt ≤ 5))
  | constant (.float bits) =>
    inferInstanceAs (Decidable (bits = 0 ∨ bits = 0x3F800000 ∨ bits = 0x40000000))
  | constant (.long v) => inferInstanceAs (Decidable (v = 0 ∨ v = 1))
  | constant (.double bits) => inferInstanceAs (Decidable (bits = 0 ∨ bits = 0x3FF0000000000000))
  | constant (.string _) => inferInstanceAs (Decidable False)

/-- The constant of the pool that a number is pushed from, if no instruction spells it. -/
def pooled? : Operand → Option Constant
  | constant (.int v) =>
    if -0x8000 ≤ v.toInt ∧ v.toInt < 0x8000 then none else some (.integer v)
  | constant (.float bits) =>
    if (constant (.float bits)).HasOpcode then none else some (.float bits)
  | constant (.long v) => if (constant (.long v)).HasOpcode then none else some (.long v)
  | constant (.double bits) =>
    if (constant (.double bits)).HasOpcode then none else some (.double bits)
  | constant (.string _) | null => none

end Operand

/-- The value that an opcode pushes without an operand. -/
def ownConstant? : Nat → Option Operand
  | 0x01 => some .null
  | 0x09 => some (.constant (.long 0))
  | 0x0A => some (.constant (.long 1))
  | 0x0B => some (.constant (.float 0))
  | 0x0C => some (.constant (.float 0x3F800000))
  | 0x0D => some (.constant (.float 0x40000000))
  | 0x0E => some (.constant (.double 0))
  | 0x0F => some (.constant (.double 0x3FF0000000000000))
  | opcode =>
    if 0x02 ≤ opcode ∧ opcode ≤ 0x08 then some (.constant (.int (Int32.ofInt (opcode - 3)))) else none

/-- The kind of the return that an opcode is. -/
def returnKind? : Nat → Option ReturnKind
  | 0xAC => some .int
  | 0xAD => some .long
  | 0xAE => some .float
  | 0xAF => some .double
  | 0xB0 => some .reference
  | 0xB1 => some .void
  | _ => none

/-- The value that an instruction pushes. A number in the code is extended by its sign. -/
def Instruction.pushed? : Instruction → Option Operand
  | .plain 0x10 operand =>
    some (.constant (.int (UInt8.ofNat (ofLe operand.reverse)).toInt8.toInt32))
  | .plain 0x11 operand =>
    some (.constant (.int (UInt16.ofNat (ofLe operand.reverse)).toInt16.toInt32))
  | .plain opcode _ => ownConstant? opcode
  | .load _ l => some (.constant l)

/-- The kind of return that an instruction is. -/
def Instruction.returns? : Instruction → Option ReturnKind
  | .plain opcode _ => returnKind? opcode
  | .load _ _ => none

/-! ## Running code -/

/-- What code hands back: the kind of its return, and the value if there is one. -/
structure Outcome where
  kind : ReturnKind
  value : Option Operand
deriving DecidableEq, Repr

/-- How many slots of the operand stack the outcome needs. -/
def Outcome.slots (outcome : Outcome) : Nat :=
  match outcome.value with
  | some x => x.slots
  | none => 0

/-- What a return hands back off the stack. -/
def handedBack? (kind : ReturnKind) (stack : List Operand) : Option Outcome :=
  match kind, stack with
  | .void, _ => some ⟨.void, none⟩
  | kind, x :: _ => if x.kind = kind then some ⟨kind, some x⟩ else none
  | _, [] => none

/-- What the instructions hand back at their first return, from a stack on. -/
def runCode (stack : List Operand) : List Instruction → Option Outcome
  | [] => none
  | i :: is =>
    match i.pushed?, i.returns? with
    | some x, _ => runCode (x :: stack) is
    | none, some kind => handedBack? kind stack
    | none, none => none

/-- What is read as a return hands back the value that was pushed before. -/
theorem runCode_return {y : Instruction} {x : Operand} (pushed : y.pushed? = some x) :
    runCode [] [y, .plain x.kind.opcode []] = some ⟨x.kind, some x⟩ := by
  have last : runCode [x] [.plain x.kind.opcode []] = handedBack? x.kind [x] := by
    cases x.kind <;> rfl
  rw [runCode, pushed]
  dsimp only
  rw [last, handedBack?]
  · rw [if_pos rfl]
  · cases x with
    | null => nofun
    | constant l => cases l <;> nofun

/-- Code that returns nothing runs to its end. -/
theorem runCode_void : runCode [] [.plain ReturnKind.void.opcode []] = some ⟨.void, none⟩ := rfl

/-! ## Pushing -/

/-- The bytes are those of one instruction, which pushes the value. -/
def Pushes (cs : List Constant) (bytes : List UInt8) (x : Operand) : Prop :=
  ∃ y, readInstruction cs bytes = some (y, []) ∧ y.pushed? = some x

/-- The bytes are those of an instruction that pushes the value, and there are no fewer. -/
def Shortest (cs : List Constant) (bytes : List UInt8) (x : Operand) : Prop :=
  Pushes cs bytes x ∧ ∀ other, Pushes cs other x → bytes.length ≤ other.length

/-- The bytes are those of an instruction that pushes the value, and there are no fewer unless
a number of two bytes is spelled in them that the pool has at a slot of one byte. -/
def Tight (cs : List Constant) (bytes : List UInt8) (x : Operand) : Prop :=
  Pushes cs bytes x ∧ ∀ other, Pushes cs other x →
    bytes.length ≤ other.length ∨ bytes.head? = some 0x11 ∧ other.head? = some 0x12

section Inversion

variable {cs : List Constant} {x : Operand}

/-- What is shortest cannot be shortened. -/
theorem Shortest.tight {bytes : List UInt8} (h : Shortest cs bytes x) : Tight cs bytes x :=
  ⟨h.1, fun other pushes => .inl (h.2 other pushes)⟩

/-- A constant that an instruction stands for has one of its own. -/
theorem hasOpcode_of_ownConstant? {opcode : Nat} (h : ownConstant? opcode = some x) :
    x.HasOpcode := by
  unfold ownConstant? at h
  split at h
  case h_9 =>
    split at h
    · rename_i range
      cases h
      have exact : (Int32.ofInt (opcode - 3)).toInt = opcode - 3 :=
        Int32.toInt_ofInt_of_le (by omega) (by omega)
      rw [Operand.HasOpcode, exact]
      omega
    · cases h
  all_goals
    cases h
    simp [Operand.HasOpcode]

/-- An instruction is read by its first byte. -/
theorem readInstruction_cons (cs : List Constant) (b : UInt8) (rest : List UInt8) :
    readInstruction cs (b :: rest) = readOperand cs b.toNat rest := by
  have read := spells_byte b rest
  rw [List.singleton_append] at read
  rw [readInstruction, bind_apply, read, Option.bind_some]

/-- Without bytes, nothing is pushed. -/
theorem not_pushes_nil : ¬ Pushes cs [] x := by
  rintro ⟨y, read, _⟩
  cases read

/-- An instruction of one byte has an opcode for its value alone. -/
theorem hasOpcode_of_pushes {b : UInt8} (h : Pushes cs [b] x) : x.HasOpcode := by
  obtain ⟨y, read, pushed⟩ := h
  rw [readInstruction_cons] at read
  unfold readOperand at read
  split at read
  · cases read
  split at read
  · cases read
  split at read
  · cases read
  split at read
  · cases read
  split at read
  · cases read
  split at read
  · cases read
    have own : ownConstant? b.toNat = some x := by
      rwa [Instruction.pushed?] at pushed
      all_goals assumption
    exact hasOpcode_of_ownConstant? own
  · cases read

/-- An instruction of two bytes spells a number in one of them, or the slot of a constant. -/
theorem pushes_two {b c : UInt8} (h : Pushes cs [b, c] x) :
    x = .constant (.int c.toInt8.toInt32)
      ∨ b = 0x12 ∧ ∃ l, literal? cs c.toNat = some l ∧ l.isWide = false ∧ x = .constant l := by
  obtain ⟨y, read, pushed⟩ := h
  rw [readInstruction_cons] at read
  unfold readOperand at read
  split at read
  · rename_i short
    rw [short] at read
    cases read
    cases pushed
    exact .inl (by simp [ofLe])
  split at read
  · cases read
  split at read
  · rename_i load
    have slot := spells_byte c []
    rw [List.append_nil] at slot
    rw [bind_apply, slot, Option.bind_some] at read
    cases found : (literal? cs c.toNat).filter (!·.isWide) with
    | none =>
      rw [found] at read
      cases read
    | some l =>
      rw [found] at read
      cases read
      cases pushed
      obtain ⟨found, narrow⟩ := Option.filter_eq_some_iff.mp found
      exact .inr ⟨UInt8.toNat_inj.mp load, l, found, by simpa using narrow, rfl⟩
  split at read
  · cases read
  split at read
  · cases read
  split at read
  · cases read
  · cases read

/-- A value without an opcode of its own takes two bytes at least. -/
theorem two_le_length {other : List UInt8} (pushes : Pushes cs other x) (bare : ¬ x.HasOpcode) :
    2 ≤ other.length := by
  match other with
  | [] => exact absurd pushes not_pushes_nil
  | [b] => exact absurd (hasOpcode_of_pushes pushes) bare
  | _ :: _ :: _ => exact Nat.le_add_left _ _

/-- A value that is no number of one byte takes three bytes, but where the pool has it at a
slot of one byte. -/
theorem three_le_length {other : List UInt8} (pushes : Pushes cs other x) (bare : ¬ x.HasOpcode)
    (large : ∀ c : UInt8, x ≠ .constant (.int c.toInt8.toInt32)) :
    3 ≤ other.length ∨ other.head? = some 0x12
      ∧ ∃ n < 256, ∃ l, literal? cs n = some l ∧ l.isWide = false ∧ x = .constant l := by
  match other with
  | [] => exact absurd pushes not_pushes_nil
  | [b] => exact absurd (hasOpcode_of_pushes pushes) bare
  | [b, c] =>
    rcases pushes_two pushes with number | ⟨rfl, l, found⟩
    · exact absurd number (large c)
    · exact .inr ⟨rfl, c.toNat, c.toNat_lt, l, found⟩
  | _ :: _ :: _ :: _ => exact .inl (Nat.le_add_left _ _)

end Inversion

/-! ## Constants of the pool -/

namespace Literal

variable {p : ConstantPool} {n m : Nat} {l : Literal}

/-- What is found at a slot stands there. -/
theorem stands_of_literal? (found : literal? p.constants.toList n = some l) : l.Stands p n := by
  unfold literal? at found
  split at found
  case h_5 text refers =>
    obtain ⟨s, holds, rfl⟩ := Option.map_eq_some_iff.mp found
    refine ⟨text, refers, ?_⟩
    unfold text? at holds
    split at holds
    · rename_i here
      cases holds
      exact here
    · cases holds
  case h_6 => cases found
  all_goals
    rename_i here
    cases found
    exact here

/-- A literal stands at one slot only. -/
theorem Stands.same_slot (settled : Settled p) (hn : l.Stands p n) (hm : l.Stands p m) : n = m := by
  cases l with
  | string s =>
    obtain ⟨text, refers, holds⟩ := hn
    obtain ⟨other, refers', holds'⟩ := hm
    obtain rfl := settled.same_slot holds holds'
    exact settled.same_slot refers refers'
  | _ => exact settled.same_slot hn hm

end Literal

/-! ## Instructions that push -/

/-- From the pool on, the instruction pushes the value, and does so in the fewest bytes. -/
structure Puts (p : ConstantPool) (i : ClassFile.Instruction) (x : Operand) : Prop where
  tells : ∃ y, Tells p readInstruction i.encode y ∧ y.pushed? = some x
  tight : Tight p.constants.toList i.encode x
  slots : i.pushed = x.slots

section Puts

variable {p : ConstantPool} {i : ClassFile.Instruction} {x : Operand} {l : Literal} {n : Nat}

/-- An instruction that is read as a push pushes. -/
theorem pushes_of_tells {y : Instruction} (wf : WellFormed p) (tells : Tells p readInstruction i.encode y)
    (pushed : y.pushed? = some x) : Pushes p.constants.toList i.encode x := by
  have read := tells p (.refl p) wf []
  rw [List.append_nil] at read
  exact ⟨y, read, pushed⟩

/-- Nothing is shorter than one byte. -/
theorem puts_bare (wf : WellFormed p) (opcode : Nat) (bytes : i.encode = [UInt8.ofNat opcode])
    (bare : 0x01 ≤ opcode ∧ opcode ≤ 0x0F) (own : ownConstant? opcode = some x)
    (slots : i.pushed = x.slots) : Puts p i x := by
  have pushed : (Instruction.plain opcode []).pushed? = some x := by
    rw [Instruction.pushed?, own]
    all_goals omega
  have tells : Tells p readInstruction i.encode (.plain opcode []) := by
    rw [bytes]
    exact tells_bare opcode (.inl bare)
  refine ⟨⟨_, tells, pushed⟩, Shortest.tight ⟨pushes_of_tells wf tells pushed, ?_⟩, slots⟩
  intro other pushes
  rw [bytes]
  exact List.length_pos_iff.mpr fun empty => not_pushes_nil (empty ▸ pushes)

/-- A number of one byte is put there with it. -/
theorem puts_bipush (wf : WellFormed p) {v : Int32} (bare : ¬ (Operand.constant (.int v)).HasOpcode)
    (range : -0x80 ≤ v.toInt ∧ v.toInt < 0x80) :
    Puts p (.bipush (Int8.ofInt v.toInt)) (.constant (.int v)) := by
  have tells : Tells p readInstruction (ClassFile.Instruction.bipush (Int8.ofInt v.toInt)).encode
      (.plain 0x10 [(Int8.ofInt v.toInt).toUInt8]) := tells_plain 0x10 (by decide) fun _ => rfl
  have same : (Int8.ofInt v.toInt).toInt32 = v := by
    rw [← Int32.toInt_inj, Int8.toInt_toInt32, Int8.toInt_ofInt_of_le range.1 range.2]
  have pushed : (Instruction.plain 0x10 [(Int8.ofInt v.toInt).toUInt8]).pushed?
      = some (.constant (.int v)) := by
    simpa [Instruction.pushed?, ofLe] using same
  refine ⟨⟨_, tells, pushed⟩, Shortest.tight ⟨pushes_of_tells wf tells pushed, ?_⟩, rfl⟩
  exact fun other pushes => two_le_length pushes bare

/-- A number that takes two bytes is put there with these. -/
theorem puts_sipush (wf : WellFormed p) {v : Int32} (bare : ¬ (Operand.constant (.int v)).HasOpcode)
    (large : ∀ c : UInt8, v ≠ c.toInt8.toInt32) (range : -0x8000 ≤ v.toInt ∧ v.toInt < 0x8000) :
    Puts p (.sipush (Int16.ofInt v.toInt)) (.constant (.int v)) := by
  have two : (be 2 (Int16.ofInt v.toInt).toUInt16.toNat).length = 2 := length_be _ _
  have tells : Tells p readInstruction (ClassFile.Instruction.sipush (Int16.ofInt v.toInt)).encode
      (.plain 0x11 (be 2 (Int16.ofInt v.toInt).toUInt16.toNat)) := by
    refine tells_plain 0x11 (by decide) fun _ => ?_
    rw [two]
    rfl
  have same : (Int16.ofInt v.toInt).toInt32 = v := by
    rw [← Int32.toInt_inj, Int16.toInt_toInt32, Int16.toInt_ofInt_of_le range.1 range.2]
  have pushed : (Instruction.plain 0x11 (be 2 (Int16.ofInt v.toInt).toUInt16.toNat)).pushed?
      = some (.constant (.int v)) := by
    rw [Instruction.pushed?, be, List.reverse_reverse, ofLe_le (UInt16.toNat_lt _)]
    simpa using same
  refine ⟨⟨_, tells, pushed⟩, ⟨pushes_of_tells wf tells pushed, fun other pushes => ?_⟩, rfl⟩
  rcases three_le_length pushes bare (fun c => by simpa using large c) with long | ⟨slot, _⟩
  · exact .inl long
  · exact .inr ⟨rfl, slot⟩

/-- A narrow constant is put there from its slot. -/
theorem puts_ldc (settled : Settled p) (stands : l.Stands p n) (narrow : l.isWide = false)
    (bare : ¬ (Operand.constant l).HasOpcode)
    (large : ∀ c : UInt8, l ≠ .int c.toInt8.toInt32) : Puts p (.ldc n) (.constant l) := by
  obtain ⟨opcode, tells⟩ := tells_ldc stands (by rw [narrow]; rfl)
  have slots : (ClassFile.Instruction.ldc n).pushed = (Operand.constant l).slots := by
    rw [Operand.slots, narrow]
    rfl
  refine ⟨⟨_, tells, rfl⟩, Shortest.tight ⟨pushes_of_tells settled.toWellFormed tells rfl, ?_⟩, slots⟩
  intro other pushes
  rw [ClassFile.Instruction.encode]
  split
  · exact two_le_length pushes bare
  · rename_i far
    rcases three_le_length pushes bare (fun c => by simpa using large c) with
      long | ⟨_, m, near, l', found, _, same⟩
    · exact long
    · -- the pool has the constant at this slot only
      cases same
      have here := (Literal.stands_of_literal? found).same_slot settled stands
      omega

theorem puts_ldcWide (wf : WellFormed p) (stands : l.Stands p n) (wide : l.isWide = true)
    (bare : ¬ (Operand.constant l).HasOpcode) : Puts p (.ldcWide n) (.constant l) := by
  have tells := tells_ldcWide stands wide
  have slots : (ClassFile.Instruction.ldcWide n).pushed = (Operand.constant l).slots := by
    rw [Operand.slots, wide]
    rfl
  have number (c : UInt8) : Operand.constant l ≠ .constant (.int c.toInt8.toInt32) := by
    rintro same
    cases same
    cases wide
  refine ⟨⟨_, tells, rfl⟩, Shortest.tight ⟨pushes_of_tells wf tells rfl, ?_⟩, slots⟩
  intro other pushes
  rcases three_le_length pushes bare number with long | ⟨_, m, _, l', _, narrow, same⟩
  · exact long
  · cases same
    rw [wide] at narrow
    cases narrow

/-- A number of one byte is in the range of one. -/
theorem toInt_byte (c : UInt8) : -0x80 ≤ c.toInt8.toInt32.toInt ∧ c.toInt8.toInt32.toInt < 0x80 := by
  rw [Int8.toInt_toInt32]
  exact ⟨Int8.le_toInt _, Int8.toInt_lt _⟩

/-- Of the instructions without a slot, the one for a number pushes it. -/
theorem puts_pushInt? (wf : WellFormed p) {v : Int32}
    (chosen : ClassFile.Instruction.pushInt? v.toInt = some i) : Puts p i (.constant (.int v)) := by
  unfold ClassFile.Instruction.pushInt? at chosen
  split at chosen
  · rename_i small
    cases chosen
    have position : (((0x02 + (v.toInt + 1).toNat : Nat) : Int) - 3) = v.toInt := by omega
    refine puts_bare wf (0x02 + (v.toInt + 1).toNat) rfl (by omega) ?_ rfl
    unfold ownConstant?
    split
    case h_9 => rw [if_pos (by omega), position, Int32.ofInt_toInt]
    all_goals omega
  split at chosen
  · rename_i bare range
    cases chosen
    exact puts_bipush wf bare range
  split at chosen
  · rename_i bare large range
    cases chosen
    exact puts_sipush wf bare (fun c same => large (same ▸ toInt_byte c)) range
  · cases chosen

/-- A number that is pushed without the pool has 16 bits. -/
theorem range_of_pushInt? {v : Int32} (chosen : ClassFile.Instruction.pushInt? v.toInt = some i) :
    -0x8000 ≤ v.toInt ∧ v.toInt < 0x8000 := by
  unfold ClassFile.Instruction.pushInt? at chosen
  split at chosen
  · omega
  split at chosen
  · omega
  split at chosen
  · assumption
  · cases chosen

/-- A number for which there is no such instruction takes more than two bytes. -/
theorem pushInt?_eq_none {v : Int32} (missing : ClassFile.Instruction.pushInt? v.toInt = none) :
    ¬ (Operand.constant (.int v)).HasOpcode ∧ (∀ c : UInt8, v ≠ c.toInt8.toInt32)
      ∧ ¬ (-0x8000 ≤ v.toInt ∧ v.toInt < 0x8000) := by
  unfold ClassFile.Instruction.pushInt? at missing
  split at missing
  · cases missing
  split at missing
  · cases missing
  split at missing
  · cases missing
  rename_i bare large range
  exact ⟨bare, fun c same => large (same ▸ toInt_byte c), range⟩

end Puts

end StubJar.ClassFile.Resolved
