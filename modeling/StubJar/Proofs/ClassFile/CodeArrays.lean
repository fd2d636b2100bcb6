import StubJar.ClassFile.Instruction
import StubJar.Proofs.Bytes.Numbers
import StubJar.Proofs.Success

/-!
# Code read back

Code is written just if its instructions have no more bytes than a method may have, and what is
written is read back as the instructions (`Instruction.encodeCode_readBack`).

The reader goes by the table of opcodes (`Instruction.row?`), which says of each opcode what
operand stands behind it and what instruction the two make, and it knows nothing of the writer.
To load from a slot of one byte there are two forms; the shorter one is written
(`Instruction.eq_encode_or_length_lt`).
-/

namespace StubJar.ClassFile.Instruction

open StubJar.Bytes

/-! ## The table of opcodes -/

/-- What stands behind an opcode, and the instruction that the two make. -/
inductive Row where
  /-- Nothing. -/
  | bare (i : Instruction)
  /-- A signed number in one byte. -/
  | byte (i : Int8 → Instruction)
  /-- A signed number in two bytes. -/
  | short (i : Int16 → Instruction)
  /-- A slot of the pool in one byte. -/
  | slot (i : Nat → Instruction)
  /-- A slot of the pool in two bytes. -/
  | wideSlot (i : Nat → Instruction)

/-- The row of an opcode, if it pushes a constant or returns. -/
def row? : Nat → Option Row
  | 0x01 => some (.bare .aconstNull)
  | 0x02 => some (.bare (.iconst ⟨0, by decide⟩))
  | 0x03 => some (.bare (.iconst ⟨1, by decide⟩))
  | 0x04 => some (.bare (.iconst ⟨2, by decide⟩))
  | 0x05 => some (.bare (.iconst ⟨3, by decide⟩))
  | 0x06 => some (.bare (.iconst ⟨4, by decide⟩))
  | 0x07 => some (.bare (.iconst ⟨5, by decide⟩))
  | 0x08 => some (.bare (.iconst ⟨6, by decide⟩))
  | 0x09 => some (.bare (.lconst ⟨0, by decide⟩))
  | 0x0A => some (.bare (.lconst ⟨1, by decide⟩))
  | 0x0B => some (.bare (.fconst ⟨0, by decide⟩))
  | 0x0C => some (.bare (.fconst ⟨1, by decide⟩))
  | 0x0D => some (.bare (.fconst ⟨2, by decide⟩))
  | 0x0E => some (.bare (.dconst ⟨0, by decide⟩))
  | 0x0F => some (.bare (.dconst ⟨1, by decide⟩))
  | 0x10 => some (.byte .bipush)
  | 0x11 => some (.short .sipush)
  | 0x12 => some (.slot .ldc)
  | 0x13 => some (.wideSlot .ldc)
  | 0x14 => some (.wideSlot .ldcWide)
  | 0xAC => some (.bare (.ret .int))
  | 0xAD => some (.bare (.ret .long))
  | 0xAE => some (.bare (.ret .float))
  | 0xAF => some (.bare (.ret .double))
  | 0xB0 => some (.bare (.ret .reference))
  | 0xB1 => some (.bare (.ret .void))
  | _ => none

/-- The number in two bytes, the higher one first. -/
def pair (high low : UInt8) : Nat := high.toNat * 0x100 + low.toNat

/-- The instructions that the bytes consist of. -/
def decodeCode? : List UInt8 → Option (List Instruction)
  | [] => some []
  | opcode :: bytes =>
    match row? opcode.toNat, bytes with
    | some (.bare i), rest => (decodeCode? rest).map (i :: ·)
    | some (.byte i), b :: rest => (decodeCode? rest).map (i b.toInt8 :: ·)
    | some (.short i), high :: low :: rest =>
      (decodeCode? rest).map (i (UInt16.ofNat (pair high low)).toInt16 :: ·)
    | some (.slot i), b :: rest => (decodeCode? rest).map (i b.toNat :: ·)
    | some (.wideSlot i), high :: low :: rest => (decodeCode? rest).map (i (pair high low) :: ·)
    | _, _ => none

/-- The bytes are those of one instruction: an opcode, and the operand that the table asks for. -/
inductive Spells : List UInt8 → Instruction → Prop
  | bare {opcode : UInt8} {i : Instruction} (row : row? opcode.toNat = some (.bare i)) :
    Spells [opcode] i
  | byte {opcode b : UInt8} {i : Int8 → Instruction} (row : row? opcode.toNat = some (.byte i)) :
    Spells [opcode, b] (i b.toInt8)
  | short {opcode high low : UInt8} {i : Int16 → Instruction}
    (row : row? opcode.toNat = some (.short i)) :
    Spells [opcode, high, low] (i (UInt16.ofNat (pair high low)).toInt16)
  | slot {opcode b : UInt8} {i : Nat → Instruction} (row : row? opcode.toNat = some (.slot i)) :
    Spells [opcode, b] (i b.toNat)
  | wideSlot {opcode high low : UInt8} {i : Nat → Instruction}
    (row : row? opcode.toNat = some (.wideSlot i)) :
    Spells [opcode, high, low] (i (pair high low))

/-! ## Two bytes -/

/-- Two bytes make a number of 16 bits. -/
theorem pair_lt (high low : UInt8) : pair high low < 2 ^ 16 := by
  have bound := high.toNat_lt
  have bound' := low.toNat_lt
  rw [pair]
  omega

/-- A number of two bytes is written as these. -/
theorem be_pair (high low : UInt8) : be 2 (pair high low) = [high, low] := by
  have bound := low.toNat_lt
  have upper : UInt8.ofNat (pair high low / 256) = high := by
    rw [pair, show (high.toNat * 0x100 + low.toNat) / 256 = high.toNat by omega, UInt8.ofNat_toNat]
  have lower : UInt8.ofNat (pair high low) = low := by
    apply UInt8.toNat_inj.mp
    rw [pair, UInt8.toNat_ofNat']
    omega
  rw [be, le, le, le, upper, lower]
  rfl

/-- A number of 16 bits is put together from its two bytes. -/
theorem pair_be {n : Nat} (fits : n < 2 ^ 16) :
    pair (UInt8.ofNat (n / 256)) (UInt8.ofNat n) = n := by
  rw [pair, UInt8.toNat_ofNat', UInt8.toNat_ofNat']
  omega

/-- A byte is known by its number. -/
theorem eq_of_toNat {b : UInt8} {n : Nat} (h : b.toNat = n) : b = UInt8.ofNat n := by
  rw [← h, UInt8.ofNat_toNat]

/-! ## Forms of instructions -/

/-- The slot that is loaded from, if there is one, is a number of two bytes, as any slot of a pool
is. -/
def SlotFits : Instruction → Prop
  | ldc slot | ldcWide slot => slot < 2 ^ 16
  | _ => True

/-- A slot of two bytes is spelled by them. -/
theorem spells_wideSlot {opcode : UInt8} {i : Nat → Instruction} {n : Nat}
    (row : row? opcode.toNat = some (.wideSlot i)) (fits : n < 2 ^ 16) :
    Spells (opcode :: be 2 n) (i n) := by
  have form : Spells [opcode, UInt8.ofNat (n / 256), UInt8.ofNat n]
      (i (pair (UInt8.ofNat (n / 256)) (UInt8.ofNat n))) := .wideSlot row
  rwa [pair_be fits] at form

/-- What is written for an instruction is one of its forms. -/
theorem spells_encode {i : Instruction} (fits : i.SlotFits) : Spells i.encode i := by
  cases i with
  | aconstNull => exact .bare rfl
  | iconst k => match k with | 0 | 1 | 2 | 3 | 4 | 5 | 6 => exact .bare rfl
  | lconst k | dconst k => match k with | 0 | 1 => exact .bare rfl
  | fconst k => match k with | 0 | 1 | 2 => exact .bare rfl
  | bipush v =>
    have form : Spells [0x10, v.toUInt8] (.bipush v.toUInt8.toInt8) := .byte rfl
    rwa [Int8.toInt8_toUInt8] at form
  | sipush v =>
    have form : Spells (0x11 :: be 2 v.toUInt16.toNat) (.sipush (UInt16.ofNat (pair
        (UInt8.ofNat (v.toUInt16.toNat / 256)) (UInt8.ofNat v.toUInt16.toNat))).toInt16) := .short rfl
    rwa [pair_be v.toUInt16.toNat_lt, UInt16.ofNat_toNat, Int16.toInt16_toUInt16] at form
  | ldc n =>
    rw [encode]
    split
    · rename_i short
      have form : Spells [0x12, UInt8.ofNat n] (.ldc (UInt8.ofNat n).toNat) := .slot rfl
      rwa [UInt8.toNat_ofNat_of_lt' short] at form
    · exact spells_wideSlot rfl fits
  | ldcWide n => exact spells_wideSlot rfl fits
  | ret kind => cases kind <;> exact .bare rfl

/-- Any form of an instruction but the one that is written is longer. -/
theorem eq_encode_or_length_lt {block : List UInt8} {i : Instruction} (h : Spells block i) :
    block = i.encode ∨ i.encode.length < block.length := by
  cases h with
  | bare row =>
    unfold row? at row
    split at row <;> cases row
    all_goals
      rename_i found
      rw [eq_of_toNat found]
      exact .inl rfl
  | byte row =>
    unfold row? at row
    split at row <;> cases row
    rename_i found
    rw [eq_of_toNat found, encode, UInt8.toUInt8_toInt8]
    exact .inl rfl
  | @short _ high low _ row =>
    unfold row? at row
    split at row <;> cases row
    rename_i found
    rw [eq_of_toNat found, encode, UInt16.toUInt16_toInt16,
      UInt16.toNat_ofNat_of_lt' (pair_lt high low), be_pair]
    exact .inl rfl
  | @slot _ b _ row =>
    unfold row? at row
    split at row <;> cases row
    rename_i found
    rw [eq_of_toNat found, encode, if_pos b.toNat_lt, UInt8.ofNat_toNat]
    exact .inl rfl
  | @wideSlot _ high low _ row =>
    unfold row? at row
    split at row <;> cases row <;> rename_i found
    · rw [eq_of_toNat found, encode]
      split
      -- the slot fits into one byte, but is read from two
      · exact .inr (Nat.lt_succ_self 2)
      · rw [be_pair]
        exact .inl rfl
    · rw [eq_of_toNat found, encode, be_pair]
      exact .inl rfl

/-- An instruction has as many bytes as its size says. -/
theorem length_encode (i : Instruction) : i.encode.length = i.size := by
  cases i with
  | sipush v => rw [encode, List.length_cons, length_be, size]
  | ldcWide n => rw [encode, List.length_cons, length_be, size]
  | ldc n =>
    rw [encode, size]
    split
    · rfl
    · rw [List.length_cons, length_be]
  | _ => rfl

/-! ## Reading code -/

/-- An instruction is read in front of any others. -/
theorem decodeCode?_append {block : List UInt8} {i : Instruction} (h : Spells block i)
    (rest : List UInt8) : decodeCode? (block ++ rest) = (decodeCode? rest).map (i :: ·) := by
  cases h with
  | bare row | byte row | short row | slot row | wideSlot row => simp [decodeCode?, row]

/-- One more instruction in front. -/
theorem exists_blocks_cons {block rest : List UInt8} {i : Instruction} {is : List Instruction}
    (head : Spells block i) (behind : ∀ is, decodeCode? rest = some is →
      ∃ blocks, rest = blocks.flatten ∧ List.Forall₂ Spells blocks is)
    (read : (decodeCode? rest).map (i :: ·) = some is) :
    ∃ blocks, block ++ rest = blocks.flatten ∧ List.Forall₂ Spells blocks is := by
  obtain ⟨later, found, rfl⟩ := Option.map_eq_some_iff.mp read
  obtain ⟨blocks, rfl, each⟩ := behind later found
  exact ⟨block :: blocks, rfl, .cons head each⟩

/-- Bytes are read as code just if they fall apart into forms of its instructions. -/
theorem decodeCode?_eq_some {bytes : List UInt8} {is : List Instruction} :
    decodeCode? bytes = some is ↔
      ∃ blocks, bytes = blocks.flatten ∧ List.Forall₂ Spells blocks is := by
  constructor
  · intro h
    fun_induction decodeCode? bytes generalizing is with
    | case1 =>
      cases h
      exact ⟨[], rfl, .nil⟩
    | case2 opcode rest i row ih => exact exists_blocks_cons (.bare row) (fun _ => ih) h
    | case3 opcode i b rest row ih => exact exists_blocks_cons (.byte row) (fun _ => ih) h
    | case4 opcode i high low rest row ih => exact exists_blocks_cons (.short row) (fun _ => ih) h
    | case5 opcode i b rest row ih => exact exists_blocks_cons (.slot row) (fun _ => ih) h
    | case6 opcode i high low rest row ih =>
      exact exists_blocks_cons (.wideSlot row) (fun _ => ih) h
    | case7 => cases h
  · rintro ⟨blocks, rfl, each⟩
    induction each with
    | nil => rfl
    | cons head _ ih => rw [List.flatten_cons, decodeCode?_append head, ih, Option.map_some]

/-! ## Writing code -/

/-- How many bytes instructions take. -/
def codeSize (is : List Instruction) : Nat := (is.map size).sum

/-- The size of code is that of its bytes. -/
theorem length_flatMap_encode (is : List Instruction) :
    (is.flatMap encode).length = codeSize is := by
  rw [List.length_flatMap, codeSize]
  exact congrArg List.sum (List.map_congr_left fun i _ => length_encode i)

/-- Code is written if it has no more than 65535 bytes. -/
theorem encodeCode_eq_ok {is : List Instruction} {bytes : List UInt8} :
    encodeCode is = .ok bytes ↔
      (is.flatMap encode).length ≤ 65535 ∧ bytes = is.flatMap encode := by
  rw [encodeCode, maxCodeSize]
  split
  · exact ⟨nofun, fun short => by omega⟩
  · rw [Except.ok.injEq]
    exact ⟨fun same => ⟨by omega, same.symm⟩, fun short => short.2.symm⟩

/-- Otherwise the fault says how many there are. -/
theorem encodeCode_eq_error {is : List Instruction} {fault : Fault} :
    encodeCode is = .error fault ↔ 65535 < codeSize is ∧ fault = .codeTooLong (codeSize is) := by
  rw [encodeCode, ← length_flatMap_encode, maxCodeSize]
  split
  · rw [Except.error.injEq]
    exact ⟨fun same => ⟨by omega, same.symm⟩, fun long => long.2.symm⟩
  · exact ⟨nofun, fun long => by omega⟩

/-- What is written is read back. -/
theorem decodeCode?_encodeCode {is : List Instruction} {bytes : List UInt8}
    (h : encodeCode is = .ok bytes) (fits : ∀ i ∈ is, i.SlotFits) : decodeCode? bytes = some is := by
  obtain ⟨_, rfl⟩ := encodeCode_eq_ok.mp h
  refine decodeCode?_eq_some.mpr ⟨is.map encode, List.flatMap_def, ?_⟩
  rw [List.forall₂_map_left_iff, List.forall₂_same]
  exact fun i mem => spells_encode (fits i mem)

/-- What is written is shorter than any other form of the code. -/
theorem length_encodeCode_lt {is : List Instruction} {bytes other : List UInt8}
    (h : encodeCode is = .ok bytes) (read : decodeCode? other = some is) (apart : other ≠ bytes) :
    bytes.length < other.length := by
  obtain ⟨_, rfl⟩ := encodeCode_eq_ok.mp h
  obtain ⟨blocks, rfl, each⟩ := decodeCode?_eq_some.mp read
  exact (flatten_eq_or_length_lt (each.imp fun _ _ => eq_encode_or_length_lt)).resolve_left apart

/-- Where a constant of one slot is loaded, the opcode tells the width of the slot. -/
theorem opcode_ldc {before after : List Instruction} {n : Nat} {bytes : List UInt8}
    (h : encodeCode (before ++ .ldc n :: after) = .ok bytes) :
    bytes[codeSize before]? = some (if n ≤ 255 then 0x12 else 0x13) := by
  obtain ⟨_, rfl⟩ := encodeCode_eq_ok.mp h
  rw [List.flatMap_append, List.flatMap_cons, ← length_flatMap_encode,
    List.getElem?_append_right (Nat.le_refl _), Nat.sub_self, encode]
  by_cases short : n < 0x100
  · rw [if_pos short, if_pos (Nat.le_of_lt_succ short)]
    rfl
  · rw [if_neg short, if_neg (mt Nat.lt_succ_of_le short)]
    rfl

/-- Code is written if its instructions have up to 65535 bytes together; there are as many then,
and they are read back as the instructions and are the shortest that are. Code with more bytes
is refused. -/
theorem encodeCode_readBack :
    (∀ is, (∃ bytes, encodeCode is = .ok bytes) ↔ codeSize is ≤ 65535)
    ∧ (∀ is bytes, encodeCode is = .ok bytes → bytes.length = codeSize is
      ∧ ((∀ i ∈ is, i.SlotFits) → decodeCode? bytes = some is)
      ∧ ∀ other, decodeCode? other = some is → other ≠ bytes → bytes.length < other.length)
    ∧ (∀ before n after bytes, encodeCode (before ++ .ldc n :: after) = .ok bytes →
      bytes[codeSize before]? = some (if n ≤ 255 then 0x12 else 0x13))
    ∧ ∀ is fault, encodeCode is = .error fault ↔
      65535 < codeSize is ∧ fault = .codeTooLong (codeSize is) := by
  refine ⟨fun is => ⟨?_, fun short => ?_⟩, fun is bytes h => ⟨?_, decodeCode?_encodeCode h, ?_⟩,
    fun _ _ _ _ => opcode_ldc, fun _ _ => encodeCode_eq_error⟩
  · rintro ⟨bytes, h⟩
    rw [← length_flatMap_encode]
    exact (encodeCode_eq_ok.mp h).1
  · rw [← length_flatMap_encode] at short
    exact ⟨_, encodeCode_eq_ok.mpr ⟨short, rfl⟩⟩
  · obtain ⟨_, rfl⟩ := encodeCode_eq_ok.mp h
    exact length_flatMap_encode is
  · exact fun other => length_encodeCode_lt h

/-- A number below zero and both forms of a load. A slot that fits into one byte is also read
from two. -/
theorem encodeCode_readBack_loads :
    encodeCode [.bipush (-100), .ldc 255, .ldc 256, .ret .int] =
        .ok [0x10, 0x9C, 0x12, 0xFF, 0x13, 0x01, 0x00, 0xAC]
      ∧ 8 = codeSize [.bipush (-100), .ldc 255, .ldc 256, .ret .int]
      ∧ (∀ i ∈ [bipush (-100), ldc 255, ldc 256, ret .int], i.SlotFits)
      ∧ decodeCode? [0x10, 0x9C, 0x12, 0xFF, 0x13, 0x01, 0x00, 0xAC] =
        some [.bipush (-100), .ldc 255, .ldc 256, .ret .int]
      ∧ decodeCode? [0x10, 0x9C, 0x13, 0x00, 0xFF, 0x13, 0x01, 0x00, 0xAC] =
        some [.bipush (-100), .ldc 255, .ldc 256, .ret .int]
      ∧ 8 < 9
      ∧ [(0x10 : UInt8), 0x9C, 0x12, 0xFF, 0x13, 0x01, 0x00, 0xAC][2]? = some 0x12 := by
  have written : encodeCode [.bipush (-100), .ldc 255, .ldc 256, .ret .int] =
      .ok [0x10, 0x9C, 0x12, 0xFF, 0x13, 0x01, 0x00, 0xAC] := by rfl
  have longer : decodeCode? [0x10, 0x9C, 0x13, 0x00, 0xFF, 0x13, 0x01, 0x00, 0xAC] =
      some [.bipush (-100), .ldc 255, .ldc 256, .ret .int] := by rfl
  have fits : ∀ i ∈ [bipush (-100), ldc 255, ldc 256, ret .int], i.SlotFits := by
    simp [SlotFits]
  obtain ⟨length, read, shortest⟩ := encodeCode_readBack.2.1 _ _ written
  exact ⟨written, length, fits, read fits, longer, shortest _ longer (by decide),
    encodeCode_readBack.2.2.1 [.bipush (-100)] 255 [.ldc 256, .ret .int] _ written⟩

end StubJar.ClassFile.Instruction
