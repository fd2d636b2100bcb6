import StubJar.Dalvik.Instruction
import StubJar.Proofs.Success

/-!
# Instructions and their units

Instructions are written as units just where their operands fit into their fields, and are
read back from them. Units that are read as instructions are those that the instructions are
written as, except that nothing is kept of the upper byte of a `return-void`. Where units are
refused, those in front of the position that the fault names are read on their own
(`coding_inverse`).

Both directions rest on `Spells`, which relates the units of a single instruction to it. Units
fall apart into blocks of that kind up to where none starts (`exists_blocks`), so what is said
of a list of instructions is said of one instruction first.
-/

namespace StubJar.Dalvik.Instruction

/-! ## One instruction -/

/-- The operands fit into the fields that the instruction has for them. -/
def Fits : Instruction → Prop
  | returnVoid => True
  | return32 r | returnWide r | returnObject r => r ≤ 0xFF
  | const4 r v => r ≤ 0x0F ∧ -8 ≤ v.toInt ∧ v.toInt ≤ 7
  | const16 r _ | constWide16 r _ => r ≤ 0xFF

/-- The units are read as the instruction. -/
inductive Spells : List UInt16 → Instruction → Prop
  | whole {u : UInt16} {i : Instruction} (opens : opening u = .whole i) : Spells [u] i
  | withLiteral {u v : UInt16} {i : Int16 → Instruction} (opens : opening u = .withLiteral i) :
    Spells [u, v] (i v.toInt16)

/-- The units that are written for an instruction, made of some that are read as it. -/
def settled (i : Instruction) (us : List UInt16) : List UInt16 :=
  if i = returnVoid then us.map (· % 0x100) else us

/-- Settling changes no lengths. -/
theorem length_settled (i : Instruction) (us : List UInt16) :
    (i.settled us).length = us.length := by
  rw [settled]
  split
  · exact List.length_map _
  · rfl

/-- Opcodes have eight bits. -/
theorem opcode_lt (i : Instruction) : i.opcode < 0x100 := by
  cases i <;> exact of_decide_eq_true rfl

/-- Every instruction has a unit. -/
theorem size_pos (i : Instruction) : 0 < i.size := by
  cases i <;> exact Nat.succ_pos _

/-- A register fits the wide field if it has eight bits. -/
theorem exists_wideField_iff {i : Instruction} {r : Nat} :
    (∃ u, i.wideField r = .ok u) ↔ r ≤ 0xFF := by
  rw [wideField]
  split
  · rename_i large
    exact ⟨nofun, fun small => absurd small (Nat.not_le_of_lt large)⟩
  · rename_i small
    exact ⟨fun _ => Nat.le_of_not_lt small, fun _ => ⟨_, rfl⟩⟩

/-- The field holds the register above the opcode. -/
theorem wideField_eq_ok {i : Instruction} {r : Nat} {u : UInt16} :
    i.wideField r = .ok u ↔ u.toNat / 0x100 = r ∧ u.toNat % 0x100 = i.opcode := by
  have byte := i.opcode_lt
  constructor
  · intro h
    have fits := exists_wideField_iff.mp ⟨u, h⟩
    rw [wideField, if_neg (Nat.not_lt_of_le fits)] at h
    rw [← Except.ok.inj h, UInt16.toNat_ofNat']
    omega
  · rintro ⟨rfl, low⟩
    have small := u.toNat_lt
    rw [wideField, if_neg (show ¬ 0xFF < u.toNat / 0x100 by omega), ← low, Nat.div_add_mod',
      UInt16.ofNat_toNat]

/-- The upper four bits are a number with a sign. -/
theorem toInt_upperNibble (u : UInt16) :
    (upperNibble u).toInt = Int.bmod (u.toNat / 0x1000) 0x10 := by
  have least := Int.le_bmod (x := u.toNat / 0x1000) (m := 0x10) (by decide)
  have most := Int.bmod_lt (x := u.toNat / 0x1000) (m := 0x10) (by decide)
  rw [upperNibble, Int8.toInt_ofInt_of_le (by omega) (by omega)]

/-- It is from -8 to 7. -/
theorem upperNibble_range (u : UInt16) :
    -8 ≤ (upperNibble u).toInt ∧ (upperNibble u).toInt ≤ 7 := by
  have least := Int.le_bmod (x := u.toNat / 0x1000) (m := 0x10) (by decide)
  have most := Int.bmod_lt (x := u.toNat / 0x1000) (m := 0x10) (by decide)
  rw [toInt_upperNibble]
  omega

/-- As a digit it is what stands there. -/
theorem digit_upperNibble (u : UInt16) :
    ((upperNibble u).toInt % 0x10).toNat = u.toNat / 0x1000 := by
  have small := u.toNat_lt
  rw [toInt_upperNibble, show (0x10 : Int) = ((0x10 : Nat) : Int) from rfl, Int.bmod_emod]
  omega

/-- The upper four bits of a unit are a number from -8 to 7, and each of these is that of the
digit that it is written as. -/
theorem upperNibble_eq_iff {u : UInt16} {v : Int8} : upperNibble u = v ↔
    (-8 ≤ v.toInt ∧ v.toInt ≤ 7) ∧ (v.toInt % 0x10).toNat = u.toNat / 0x1000 := by
  constructor
  · rintro rfl
    exact ⟨upperNibble_range u, digit_upperNibble u⟩
  · rintro ⟨⟨least, most⟩, digit⟩
    have range := upperNibble_range u
    have same := digit_upperNibble u
    apply Int8.toInt_inj.mp
    omega

/-- A literal and a register are read back from the unit that holds them. -/
theorem nibbles_of_fields {digit r : Nat} (literal : digit < 0x10) (register : r ≤ 0x0F) :
    (UInt16.ofNat (digit * 0x1000 + r * 0x100 + 0x12)).toNat / 0x1000 = digit
      ∧ (UInt16.ofNat (digit * 0x1000 + r * 0x100 + 0x12)).toNat / 0x100 % 0x10 = r
      ∧ (UInt16.ofNat (digit * 0x1000 + r * 0x100 + 0x12)).toNat % 0x100 = 0x12 := by
  rw [UInt16.toNat_ofNat']
  omega

/-- A short constant that fits is written to one unit. -/
theorem encode_const4 {r : Register} {v : Int8} (fits : (const4 r v).Fits) :
    (const4 r v).encode =
      .ok [UInt16.ofNat ((v.toInt % 0x10).toNat * 0x1000 + r * 0x100 + 0x12)] := by
  have literal : ¬ ((v < -8 || 7 < v) = true) := by
    rw [Bool.or_eq_true, decide_eq_true_eq, decide_eq_true_eq, Int8.lt_iff_toInt_lt,
      Int8.lt_iff_toInt_lt]
    exact not_or.mpr ⟨Int.not_lt.mpr fits.2.1, Int.not_lt.mpr fits.2.2⟩
  unfold encode
  dsimp only
  rw [if_neg (Nat.not_lt_of_le fits.1), if_neg literal]
  rfl

/-- One that is written fits. -/
theorem fits_of_encode_const4 {r : Register} {v : Int8} {us : List UInt16}
    (h : (const4 r v).encode = .ok us) : (const4 r v).Fits := by
  unfold encode at h
  dsimp only at h
  split at h
  · cases h
  · rename_i register
    split at h
    · cases h
    · rename_i literal
      rw [Bool.or_eq_true, decide_eq_true_eq, decide_eq_true_eq, Int8.lt_iff_toInt_lt,
        Int8.lt_iff_toInt_lt, not_or, Int.not_lt, Int.not_lt] at literal
      exact ⟨Nat.le_of_not_lt register, literal⟩

/-- An instruction is written if its fields fit. -/
theorem exists_encode_iff {i : Instruction} : (∃ us, i.encode = .ok us) ↔ i.Fits := by
  cases i with
  | returnVoid => exact ⟨fun _ => trivial, fun _ => ⟨_, rfl⟩⟩
  | return32 r | returnWide r | returnObject r | const16 r v | constWide16 r v =>
    rw [encode]
    constructor
    · rintro ⟨us, h⟩
      obtain ⟨u, field, _⟩ := bind_eq_ok.mp h
      exact exists_wideField_iff.mp ⟨u, field⟩
    · intro fits
      exact (exists_wideField_iff.mpr fits).elim fun u field => ⟨_, bind_eq_ok.mpr ⟨u, field, rfl⟩⟩
  | const4 r v =>
    exact ⟨fun ⟨us, h⟩ => fits_of_encode_const4 h, fun fits => ⟨_, encode_const4 fits⟩⟩

/-- What an instruction is written as is read as it. -/
theorem spells_of_encode {us : List UInt16} {i : Instruction} (h : i.encode = .ok us) :
    Spells us i := by
  cases i with
  | returnVoid =>
    cases h
    exact .whole rfl
  | return32 r | returnWide r | returnObject r =>
    rw [encode] at h
    obtain ⟨u, field, same⟩ := bind_eq_ok.mp h
    obtain ⟨high, low⟩ := wideField_eq_ok.mp field
    cases same
    refine .whole ?_
    rw [opening, low, high]
    rfl
  | const4 r v =>
    have fits := fits_of_encode_const4 h
    rw [encode_const4 fits] at h
    cases h
    have digit : (v.toInt % 0x10).toNat < 0x10 := by omega
    obtain ⟨high, middle, low⟩ := nibbles_of_fields digit fits.1
    refine .whole ?_
    rw [opening, low, middle, upperNibble_eq_iff.mpr ⟨fits.2, high.symm⟩]
    rfl
  | const16 r v | constWide16 r v =>
    rw [encode] at h
    obtain ⟨u, field, same⟩ := bind_eq_ok.mp h
    obtain ⟨high, low⟩ := wideField_eq_ok.mp field
    cases same
    have opens := Spells.withLiteral (u := u) (v := v.toUInt16) (by rw [opening, low, high]; rfl)
    rwa [Int16.toInt16_toUInt16] at opens

/-- What is read as an instruction is what the instruction is written as, the upper byte of a
`return-void` apart. -/
theorem encode_of_spells {us : List UInt16} {i : Instruction} (h : Spells us i) :
    i.encode = .ok (i.settled us) := by
  cases h with
  | @whole u i opens =>
    unfold opening at opens
    dsimp only at opens
    split at opens <;> cases opens <;> rename_i low
    case h_1 =>
      have kept : (0x0E : UInt16) = u % 0x100 := by
        apply UInt16.toNat_inj.mp
        rw [UInt16.toNat_mod]
        exact low.symm
      rw [settled, if_pos rfl, List.map_singleton, ← kept]
      rfl
    case h_5 =>
      have small := u.toNat_lt
      have fits : (const4 (u.toNat / 0x100 % 0x10) (upperNibble u)).Fits :=
        ⟨show u.toNat / 0x100 % 0x10 ≤ 0x0F by omega, upperNibble_range u⟩
      rw [settled, if_neg (by nofun), encode_const4 fits, digit_upperNibble,
        show u.toNat / 0x1000 * 0x1000 + u.toNat / 0x100 % 0x10 * 0x100 + 0x12 = u.toNat by omega,
        UInt16.ofNat_toNat]
    all_goals
      rw [settled, if_neg (by nofun), encode, wideField_eq_ok.mpr ⟨rfl, low⟩]
      rfl
  | @withLiteral u v i opens =>
    unfold opening at opens
    dsimp only at opens
    split at opens <;> cases opens <;> rename_i low
    all_goals
      rw [settled, if_neg (by nofun), encode, wideField_eq_ok.mpr ⟨rfl, low⟩,
        UInt16.toUInt16_toInt16]
      rfl

/-- A form has as many units as the instruction. -/
theorem length_of_spells {us : List UInt16} {i : Instruction} (h : Spells us i) :
    us.length = i.size := by
  cases h with
  | whole opens | withLiteral opens =>
    unfold opening at opens
    dsimp only at opens
    split at opens <;> cases opens <;> rfl

/-! ## Units that no instruction starts with -/

/-- The opcodes of the instructions. -/
def opcodes : List Nat := [0x0E, 0x0F, 0x10, 0x11, 0x12, 0x13, 0x16]

/-- No instruction starts at the first of the units, which stands at `offset`: its lower byte is
no opcode, or it is the last unit and its opcode asks for a literal behind it. -/
inductive Stuck (offset : Nat) : List UInt16 → InstructionFault → Prop
  | opcode {u : UInt16} {us : List UInt16} (unknown : u.toNat % 0x100 ∉ opcodes) :
    Stuck offset (u :: us) (.unsupportedOpcode (u.toNat % 0x100) offset)
  | literal {u : UInt16} (owed : u.toNat % 0x100 = 0x13 ∨ u.toNat % 0x100 = 0x16) :
    Stuck offset [u] (.cutShort offset)

/-- A unit with another opcode opens nothing that is supported. -/
theorem opening_of_unknown {u : UInt16} (unknown : u.toNat % 0x100 ∉ opcodes) :
    opening u = .unsupported (u.toNat % 0x100) := by
  unfold opening
  dsimp only
  split
  case h_8 => rfl
  all_goals
    rename_i low
    exact absurd (show u.toNat % 0x100 ∈ opcodes by rw [low]; decide) unknown

/-- A unit that is owed a literal opens an instruction with one. -/
theorem opening_of_owed {u : UInt16} (owed : u.toNat % 0x100 = 0x13 ∨ u.toNat % 0x100 = 0x16) :
    ∃ i, opening u = .withLiteral i := by
  rcases owed with low | low
  all_goals
    rw [opening, low]
    exact ⟨_, rfl⟩

/-- What is not supported has another opcode. -/
theorem unknown_of_opening {u : UInt16} {opcode : Nat} (h : opening u = .unsupported opcode) :
    u.toNat % 0x100 ∉ opcodes := by
  intro known
  simp only [opcodes, List.mem_cons, List.not_mem_nil, or_false] at known
  rcases known with low | low | low | low | low | low | low
  all_goals
    rw [opening, low] at h
    cases h

/-- What waits for a literal is owed one. -/
theorem owed_of_opening {u : UInt16} {i : Int16 → Instruction} (h : opening u = .withLiteral i) :
    u.toNat % 0x100 = 0x13 ∨ u.toNat % 0x100 = 0x16 := by
  unfold opening at h
  dsimp only at h
  split at h <;> cases h
  · rename_i low
    exact .inl low
  · rename_i low
    exact .inr low

/-- Reading fails with the fault of the units at which it is stuck. -/
theorem decodeFrom_stuck {offset : Nat} {us : List UInt16} {fault : InstructionFault}
    (h : Stuck offset us fault) (read : List Instruction) :
    decodeFrom offset read us = .error fault := by
  cases h with
  | opcode unknown => simp only [decodeFrom, opening_of_unknown unknown]
  | literal owed =>
    obtain ⟨i, opens⟩ := opening_of_owed owed
    simp only [decodeFrom, opens]

/-! ## Lists of instructions -/

/-- How many units instructions take. -/
def unitCount (is : List Instruction) : Nat := (is.map size).sum

/-- Forms in a row have as many units as their instructions. -/
theorem length_flatten {blocks : List (List UInt16)} {is : List Instruction}
    (each : List.Forall₂ Spells blocks is) : blocks.flatten.length = unitCount is := by
  induction each with
  | nil => rfl
  | cons head _ ih =>
    rw [List.flatten_cons, List.length_append, ih, length_of_spells head]
    rfl

/-- Instructions are written one by one. -/
theorem encodeAll_eq_ok {is : List Instruction} {us : List UInt16} : encodeAll is = .ok us ↔
    ∃ blocks, List.Forall₂ (fun i block => i.encode = .ok block) is blocks
      ∧ us = blocks.flatten := by
  rw [encodeAll, bind_eq_ok]
  constructor
  · rintro ⟨blocks, each, same⟩
    exact ⟨blocks, mapM_eq_ok.mp each, (Except.ok.inj same).symm⟩
  · rintro ⟨blocks, each, rfl⟩
    exact ⟨blocks, mapM_eq_ok.mpr each, rfl⟩

/-- They are written if all of them fit. -/
theorem exists_encodeAll_iff {is : List Instruction} :
    (∃ us, encodeAll is = .ok us) ↔ ∀ i ∈ is, i.Fits := by
  constructor
  · rintro ⟨us, h⟩ i mem
    obtain ⟨blocks, each, _⟩ := encodeAll_eq_ok.mp h
    obtain ⟨block, _, spelled⟩ := exists_of_mem_right each.flip mem
    exact exists_encode_iff.mp ⟨block, spelled⟩
  · intro fits
    obtain ⟨blocks, each⟩ := exists_forall₂ fun i mem => exists_encode_iff.mpr (fits i mem)
    exact ⟨_, encodeAll_eq_ok.mpr ⟨blocks, each, rfl⟩⟩

/-- A form is read in front of anything. -/
theorem decodeFrom_spells (offset : Nat) (read : List Instruction) {block : List UInt16}
    {i : Instruction} (h : Spells block i) (rest : List UInt16) :
    decodeFrom offset read (block ++ rest) =
      decodeFrom (offset + block.length) (i :: read) rest := by
  cases h with
  | whole opens =>
    rw [List.singleton_append, decodeFrom.eq_def]
    simp only [opens]
    rfl
  | withLiteral opens =>
    rw [List.cons_append, List.singleton_append, decodeFrom.eq_def]
    simp only [opens]
    rfl

theorem decodeFrom_flatten (offset : Nat) (read : List Instruction) {blocks : List (List UInt16)}
    {is : List Instruction} (each : List.Forall₂ Spells blocks is) (rest : List UInt16) :
    decodeFrom offset read (blocks.flatten ++ rest) =
      decodeFrom (offset + blocks.flatten.length) (is.reverse ++ read) rest := by
  induction each generalizing offset read with
  | nil => rfl
  | cons head _ ih =>
    rw [List.flatten_cons, List.append_assoc, decodeFrom_spells offset read head, ih,
      List.length_append, Nat.add_assoc, List.reverse_cons, List.append_assoc,
      List.singleton_append]

/-- Units are those of instructions up to where none starts. -/
theorem exists_blocks (offset : Nat) (read : List Instruction) (us : List UInt16) :
    ∃ blocks is rest, us = blocks.flatten ++ rest ∧ List.Forall₂ Spells blocks is
      ∧ (rest = [] ∨ ∀ offset, ∃ fault, Stuck offset rest fault) := by
  -- the blocks do not depend on `offset` and `read`, which only follow the recursion of the reader
  fun_induction decodeFrom offset read us with
  | case1 offset read => exact ⟨[], [], [], rfl, .nil, .inl rfl⟩
  | case2 offset read u us i opens ih =>
    obtain ⟨blocks, is, rest, rfl, each, outcome⟩ := ih
    exact ⟨[u] :: blocks, i :: is, rest, rfl, .cons (.whole opens) each, outcome⟩
  | case3 offset read u i opens v us ih =>
    obtain ⟨blocks, is, rest, rfl, each, outcome⟩ := ih
    exact ⟨[u, v] :: blocks, i v.toInt16 :: is, rest, rfl, .cons (.withLiteral opens) each, outcome⟩
  | case4 offset read u i opens =>
    exact ⟨[], [], [u], rfl, .nil, .inr fun offset => ⟨_, .literal (owed_of_opening opens)⟩⟩
  | case5 offset read u us opcode opens =>
    exact ⟨[], [], u :: us, rfl, .nil, .inr fun offset => ⟨_, .opcode (unknown_of_opening opens)⟩⟩

/-- Units are read if they are forms in a row. -/
theorem decodeAll_eq_ok {us : List UInt16} {is : List Instruction} : decodeAll us = .ok is ↔
    ∃ blocks, us = blocks.flatten ∧ List.Forall₂ Spells blocks is := by
  constructor
  · intro h
    obtain ⟨blocks, found, rest, rfl, each, outcome⟩ := exists_blocks 0 [] us
    rw [decodeAll, decodeFrom_flatten 0 [] each] at h
    rcases outcome with rfl | stuck
    · rw [decodeFrom, List.append_nil, List.reverse_reverse] at h
      cases h
      exact ⟨blocks, List.append_nil _, each⟩
    · obtain ⟨fault, stuck⟩ := stuck (0 + blocks.flatten.length)
      rw [decodeFrom_stuck stuck] at h
      cases h
  · rintro ⟨blocks, rfl, each⟩
    rw [decodeAll, ← List.append_nil blocks.flatten, decodeFrom_flatten 0 [] each, decodeFrom,
      List.append_nil, List.reverse_reverse]

/-- Otherwise they are stuck behind some that are read. -/
theorem decodeAll_eq_error {us : List UInt16} {fault : InstructionFault} :
    decodeAll us = .error fault ↔ ∃ before after is, us = before ++ after
      ∧ decodeAll before = .ok is ∧ Stuck before.length after fault := by
  constructor
  · intro h
    obtain ⟨blocks, is, rest, rfl, each, outcome⟩ := exists_blocks 0 [] us
    have read := decodeAll_eq_ok.mpr ⟨blocks, rfl, each⟩
    rcases outcome with rfl | stuck
    · rw [List.append_nil, read] at h
      cases h
    · obtain ⟨found, stuck⟩ := stuck blocks.flatten.length
      rw [decodeAll, decodeFrom_flatten 0 [] each, Nat.zero_add, decodeFrom_stuck stuck] at h
      cases h
      exact ⟨_, rest, is, rfl, read, stuck⟩
  · rintro ⟨before, after, is, rfl, read, stuck⟩
    obtain ⟨blocks, rfl, each⟩ := decodeAll_eq_ok.mp read
    rw [decodeAll, decodeFrom_flatten 0 [] each, Nat.zero_add, decodeFrom_stuck stuck]

/-! ## The upper bytes of `return-void` -/

/-- The unit at the position is that of a `return-void`. -/
def VoidAt (is : List Instruction) (k : Nat) : Prop :=
  ∃ before after, is = before ++ returnVoid :: after ∧ k = unitCount before

/-- Units of the instructions, and the same units with the upper byte of each `return-void`
zero. -/
structure Cleared (is : List Instruction) (us us' : List UInt16) : Prop where
  length : us'.length = us.length
  void : ∀ k, VoidAt is k → us'[k]? = us[k]?.map (· % 0x100)
  other : ∀ k, ¬ VoidAt is k → us'[k]? = us[k]?

/-- A return without a value stands at the front or behind the first instruction. -/
theorem voidAt_cons {i : Instruction} {is : List Instruction} {k : Nat} :
    VoidAt (i :: is) k ↔ i = returnVoid ∧ k = 0 ∨ i.size ≤ k ∧ VoidAt is (k - i.size) := by
  constructor
  · rintro ⟨before, after, same, rfl⟩
    cases before with
    | nil => exact .inl ⟨(List.cons.inj same).1, rfl⟩
    | cons j before =>
      obtain ⟨rfl, rfl⟩ := List.cons.inj same
      exact .inr ⟨Nat.le_add_right _ _, before, after, rfl, Nat.add_sub_cancel_left _ _⟩
  · rintro (⟨rfl, rfl⟩ | ⟨behind, before, after, rfl, same⟩)
    · exact ⟨[], is, rfl, rfl⟩
    · refine ⟨i :: before, after, rfl, ?_⟩
      rw [unitCount, List.map_cons, List.sum_cons, ← unitCount, ← same, Nat.add_sub_cancel' behind]

/-- Units are cleared instruction by instruction. -/
theorem Cleared.cons {block : List UInt16} {i : Instruction} {is : List Instruction}
    {us us' : List UInt16} (head : Spells block i) (rest : Cleared is us us') :
    Cleared (i :: is) (block ++ us) (i.settled block ++ us') := by
  have width := length_of_spells head
  have width' := (length_settled i block).trans width
  have positive := i.size_pos
  refine ⟨?_, fun k void => ?_, fun k other => ?_⟩
  · rw [List.length_append, List.length_append, length_settled, rest.length]
  · rw [voidAt_cons] at void
    rcases void with ⟨rfl, rfl⟩ | ⟨behind, void⟩
    · rw [List.getElem?_append_left (by omega), List.getElem?_append_left (by omega), settled,
        if_pos rfl, List.getElem?_map]
    · rw [List.getElem?_append_right (by omega), List.getElem?_append_right (by omega), width,
        width', rest.void _ void]
  · rw [voidAt_cons, not_or] at other
    rcases Nat.lt_or_ge k i.size with inside | behind
    · have proper : i ≠ returnVoid := by
        rintro rfl
        exact other.1 ⟨rfl, Nat.lt_one_iff.mp inside⟩
      rw [List.getElem?_append_left (by omega), List.getElem?_append_left (by omega), settled,
        if_neg proper]
    · rw [List.getElem?_append_right (by omega), List.getElem?_append_right (by omega), width,
        width', rest.other _ fun void => other.2 ⟨behind, void⟩]

/-- What is read can be written, cleared. -/
theorem exists_cleared {blocks : List (List UInt16)} {is : List Instruction}
    (each : List.Forall₂ Spells blocks is) :
    ∃ us, encodeAll is = .ok us ∧ Cleared is blocks.flatten us := by
  induction each with
  | nil => exact ⟨[], rfl, rfl, fun k _ => rfl, fun k _ => rfl⟩
  | cons head _ ih =>
    obtain ⟨us, written, cleared⟩ := ih
    obtain ⟨forms, each, rfl⟩ := encodeAll_eq_ok.mp written
    refine ⟨_, encodeAll_eq_ok.mpr ⟨_, .cons (encode_of_spells head) each, rfl⟩, ?_⟩
    exact cleared.cons head

/-- Writing and reading of instructions are inverse to each other, but for the upper bytes of
`return-void`; and units are refused at the first position where no instruction starts. -/
theorem coding_inverse :
    (∀ is, (∃ us, encodeAll is = .ok us) ↔ ∀ i ∈ is, i.Fits)
    ∧ (∀ is us, encodeAll is = .ok us → decodeAll us = .ok is ∧ us.length = unitCount is)
    ∧ (∀ us is, decodeAll us = .ok is → ∃ us', encodeAll is = .ok us' ∧ Cleared is us us')
    ∧ ∀ us fault, decodeAll us = .error fault ↔ ∃ before after is, us = before ++ after
      ∧ decodeAll before = .ok is ∧ Stuck before.length after fault := by
  refine ⟨fun is => exists_encodeAll_iff, fun is us written => ?_, fun us is read => ?_,
    fun us fault => decodeAll_eq_error⟩
  · obtain ⟨blocks, each, rfl⟩ := encodeAll_eq_ok.mp written
    have spelled := (each.imp fun _ _ => spells_of_encode).flip
    exact ⟨decodeAll_eq_ok.mpr ⟨blocks, rfl, spelled⟩, length_flatten spelled⟩
  · obtain ⟨blocks, rfl, each⟩ := decodeAll_eq_ok.mp read
    exact exists_cleared each

/-- A `return-void` with an upper byte, a literal below zero, and a literal that looks like an
opcode. -/
theorem coding_inverse_void :
    decodeAll [0x550E, 0xF212, 0x0316, 0x0013] =
        .ok [returnVoid, const4 2 (-1), constWide16 3 0x13]
      ∧ ∃ us, encodeAll [returnVoid, const4 2 (-1), constWide16 3 0x13] = .ok us
        ∧ Cleared [returnVoid, const4 2 (-1), constWide16 3 0x13]
          [0x550E, 0xF212, 0x0316, 0x0013] us
        ∧ decodeAll us = .ok [returnVoid, const4 2 (-1), constWide16 3 0x13] ∧ us.length = 4 := by
  have read : decodeAll [0x550E, 0xF212, 0x0316, 0x0013] =
      .ok [returnVoid, const4 2 (-1), constWide16 3 0x13] := by rfl
  obtain ⟨us, written, cleared⟩ := coding_inverse.2.2.1 _ _ read
  exact ⟨read, us, written, cleared, coding_inverse.2.1 _ _ written⟩

end StubJar.Dalvik.Instruction
