import Mathlib.Algebra.BigOperators.Group.List.Basic
import Mathlib.Data.Nat.Digits.Defs
import StubJar.Bytes.Leb128

/-!
# What unsigned LEB128 is read as

Bytes are read as a number just where they start with a form of it, of at most five groups
(`decode_eq_ok`), and the form that is written is the only shortest one (`length_encode_lt`).
All other bytes are refused, by how many there are (`decode_eq_error`). Numbers written one
after another are read one after another (`steps_written`).

What a form of a number is (`Spells`) is said without the reader and without the writer.
-/

namespace StubJar.Bytes.Leb128

/-! ## Forms of numbers -/

/-- What the groups of the bytes add up to; each counts 128 times as much as the one in front
of it. -/
def groupSum (form : List UInt8) : Nat := Nat.ofDigits 0x80 (form.map fun b => b.toNat % 0x80)

/-- The bytes are a form of the number: each of them but the last says that another group
follows, and their groups add up to the number. The number may have a shorter form. -/
inductive Spells : List UInt8 → Nat → Prop
  | last {b : UInt8} (low : b < 0x80) : Spells [b] b.toNat
  | more {b : UInt8} {form : List UInt8} {n : Nat} (high : 0x80 ≤ b) (behind : Spells form n) :
    Spells (b :: form) (b.toNat % 0x80 + 0x80 * n)

/-- The last byte of a number is one that is below 128. -/
theorem low_iff {b : UInt8} : b < 0x80 ↔ b.toNat < 0x80 := UInt8.lt_iff_toNat_lt

/-- Every other byte is not. -/
theorem high_iff {b : UInt8} : 0x80 ≤ b ↔ 0x80 ≤ b.toNat := UInt8.le_iff_toNat_le

/-- A group counts 128 times less than what follows it. -/
theorem groupSum_cons (b : UInt8) (form : List UInt8) :
    groupSum (b :: form) = b.toNat % 0x80 + 0x80 * groupSum form := by
  rw [groupSum, List.map_cons, Nat.ofDigits_cons]
  rfl

/-- The last group counts as it is. -/
theorem groupSum_last {b : UInt8} (low : b < 0x80) : groupSum [b] = b.toNat := by
  rw [groupSum_cons, Nat.mod_eq_of_lt (low_iff.mp low)]
  rfl

/-- The forms of a number are the bytes up to the first with its high bit clear. -/
theorem spells_iff {form : List UInt8} {n : Nat} : Spells form n ↔ ∃ more last,
    form = more ++ [last] ∧ (∀ b ∈ more, 0x80 ≤ b) ∧ last < 0x80 ∧ n = groupSum form := by
  constructor
  · intro h
    induction h with
    | @last b low => exact ⟨[], b, rfl, nofun, low, (groupSum_last low).symm⟩
    | @more b form n high _ ih =>
      obtain ⟨more, last, rfl, highs, low, rfl⟩ := ih
      refine ⟨b :: more, last, rfl, List.forall_mem_cons.mpr ⟨high, highs⟩, low, ?_⟩
      rw [groupSum_cons]
  · rintro ⟨more, last, rfl, highs, low, rfl⟩
    induction more with
    | nil =>
      rw [List.nil_append, groupSum_last low]
      exact .last low
    | cons b more ih =>
      obtain ⟨high, highs⟩ := List.forall_mem_cons.mp highs
      rw [List.cons_append, groupSum_cons]
      exact .more high (ih highs)

/-- No number is spelled by nothing. -/
theorem Spells.length_pos {form : List UInt8} {n : Nat} (h : Spells form n) : 0 < form.length := by
  cases h <;> exact Nat.succ_pos _

/-! ## Reading a form -/

/-- A group and what is behind it, as they are added up. -/
theorem add_group (sum low weight n : Nat) :
    sum + low * weight + n * (weight * 0x80) = sum + (low + 0x80 * n) * weight := by
  rw [Nat.add_mul, Nat.add_assoc, Nat.mul_comm weight, ← Nat.mul_assoc, Nat.mul_comm n]

/-- One more group has room for seven bits more. -/
theorem room_succ (k : Nat) : 2 ^ (7 * (k + 1) + 4) = 0x80 * 2 ^ (7 * k + 4) := by
  rw [show 7 * (k + 1) + 4 = 7 + (7 * k + 4) by omega, Nat.pow_add]

/-- A form in as many groups as may be read is read if its last group has room. -/
theorem decodeFrom_spells {form : List UInt8} {n : Nat} (h : Spells form n) {k : Nat}
    (few : form.length ≤ k + 1) (small : n < 2 ^ (7 * k + 4)) (weight sum : Nat)
    (rest : List UInt8) :
    decodeFrom (k + 1) weight sum (form ++ rest) = .ok (sum + n * weight, rest) := by
  induction h generalizing k weight sum with
  | @last b low =>
    -- if it is the last that may be read, the bound leaves it four bits
    have fits : ¬ (k = 0 ∧ 0x0F < b.toNat % 0x80) := by
      rintro ⟨rfl, large⟩
      rw [Nat.mod_eq_of_lt (low_iff.mp low)] at large
      omega
    rw [List.singleton_append, decodeFrom, if_neg fits, if_pos low]
  | @more b form n high behind ih =>
    have positive := behind.length_pos
    rw [List.length_cons] at few
    cases k with
    | zero => omega
    | succ k =>
      have power := room_succ k
      rw [List.cons_append, decodeFrom, if_neg (by omega), if_neg (UInt8.not_lt.mpr high),
        ih (by omega) (by omega), add_group]

/-- What is read has a form in front of the bytes that are left. -/
theorem of_decodeFrom {k weight sum n : Nat} {bytes rest : List UInt8}
    (h : decodeFrom (k + 1) weight sum bytes = .ok (n, rest)) :
    ∃ form m, bytes = form ++ rest ∧ Spells form m ∧ form.length ≤ k + 1 ∧ m < 2 ^ (7 * k + 4)
      ∧ n = sum + m * weight := by
  induction bytes generalizing k weight sum with
  | nil => cases h
  | cons b bytes ih =>
    rw [decodeFrom] at h
    split at h
    · cases h
    rename_i room
    split at h
    · rename_i low
      cases h
      refine ⟨[b], b.toNat, rfl, .last low, Nat.succ_le_succ k.zero_le, ?_, rfl⟩
      have single := low_iff.mp low
      cases k with
      | zero => omega
      | succ k =>
        have power := room_succ k
        have positive := Nat.two_pow_pos (7 * k + 4)
        omega
    · rename_i high
      cases k with
      | zero => cases h
      | succ k =>
        obtain ⟨form, m, rfl, behind, few, small, rfl⟩ := ih h
        have power := room_succ k
        refine ⟨b :: form, _, rfl, .more (UInt8.not_lt.mp high) behind, Nat.succ_le_succ few,
          by omega, ?_⟩
        rw [add_group]

/-- What is read are the forms with up to five bytes of numbers below `2 ^ 32`, and nothing
else. -/
theorem decode_eq_ok {n : Nat} {bytes rest : List UInt8} : decode bytes = .ok (n, rest) ↔
    ∃ form, bytes = form ++ rest ∧ Spells form n ∧ form.length ≤ 5 ∧ n < 2 ^ 32 := by
  constructor
  · intro h
    obtain ⟨form, m, same, spells, few, small, rfl⟩ := of_decodeFrom h
    rw [Nat.zero_add, Nat.mul_one]
    exact ⟨form, same, spells, few, small⟩
  · rintro ⟨form, rfl, spells, few, small⟩
    rw [decode, decodeFrom_spells spells few small, Nat.zero_add, Nat.mul_one]

/-- The same with the last of the groups named. -/
theorem decode_eq_ok_iff_last {n : Nat} {bytes rest : List UInt8} : decode bytes = .ok (n, rest) ↔
    ∃ more last, bytes = more ++ last :: rest ∧ more.length < 5 ∧ (∀ b ∈ more, 0x80 ≤ b)
      ∧ last < 0x80 ∧ n = groupSum (more ++ [last]) ∧ n < 2 ^ 32 := by
  rw [decode_eq_ok]
  constructor
  · rintro ⟨form, rfl, spells, few, small⟩
    obtain ⟨more, last, rfl, highs, low, total⟩ := spells_iff.mp spells
    rw [List.length_append] at few
    exact ⟨more, last, (List.append_cons _ _ _).symm, few, highs, low, total, small⟩
  · rintro ⟨more, last, rfl, few, highs, low, total, small⟩
    refine ⟨more ++ [last], List.append_cons _ _ _,
      spells_iff.mpr ⟨more, last, rfl, highs, low, total⟩, ?_, small⟩
    rw [List.length_append]
    exact few

/-- What is read is a number of 32 bits. -/
theorem decode_lt {n : Nat} {bytes rest : List UInt8} (h : decode bytes = .ok (n, rest)) :
    n < 2 ^ 32 := by
  obtain ⟨_, _, _, _, small⟩ := decode_eq_ok.mp h
  exact small

/-- Reading takes a byte at least. -/
theorem length_rest_lt {n : Nat} {bytes rest : List UInt8} (h : decode bytes = .ok (n, rest)) :
    rest.length < bytes.length := by
  obtain ⟨form, rfl, spells, _, _⟩ := decode_eq_ok.mp h
  have positive := spells.length_pos
  rw [List.length_append]
  omega

/-! ## The form that is written -/

/-- There are no more groups than were asked for. -/
theorem length_groups_le (k n : Nat) : (groups k n).length ≤ k := by
  induction k generalizing n with
  | zero => exact Nat.le_refl 0
  | succ k ih =>
    rw [groups]
    split
    · simp
    · exact Nat.succ_le_succ (ih _)

/-- A number below 128 is a byte. -/
theorem spells_last {n : Nat} (low : n < 0x80) : Spells [UInt8.ofNat n] n := by
  have byte := UInt8.toNat_ofNat_of_lt' (show n < 256 by omega)
  have form := Spells.last (show UInt8.ofNat n < 0x80 by rwa [low_iff, byte])
  rwa [byte] at form

/-- Enough groups are a form of the number. -/
theorem spells_groups (k n : Nat) (small : n < 0x80 ^ (k + 1)) : Spells (groups (k + 1) n) n := by
  induction k generalizing n with
  | zero =>
    have low : n < 0x80 := small
    rw [groups, if_pos low]
    exact spells_last low
  | succ k ih =>
    rw [groups]
    split
    · rename_i low
      exact spells_last low
    · have byte := UInt8.toNat_ofNat_of_lt' (show 0x80 + n % 0x80 < 256 by omega)
      have high : 0x80 ≤ UInt8.ofNat (0x80 + n % 0x80) := by
        rw [high_iff, byte]
        exact Nat.le_add_right _ _
      have form := Spells.more high (ih (n / 0x80) (by rw [Nat.pow_succ] at small; omega))
      rwa [byte, show (0x80 + n % 0x80) % 0x80 + 0x80 * (n / 0x80) = n by omega] at form

/-- What is written spells the number. -/
theorem spells_encode (v : UInt32) : Spells (encode v) v.toNat :=
  spells_groups 4 v.toNat (Nat.lt_trans v.toNat_lt (by decide))

/-- Every number has a byte. -/
theorem encode_ne_nil (v : UInt32) : encode v ≠ [] :=
  List.ne_nil_of_length_pos (spells_encode v).length_pos

/-- A number is read back from the front of what it was written to. -/
theorem decode_encode (v : UInt32) (rest : List UInt8) :
    decode (encode v ++ rest) = .ok (v.toNat, rest) :=
  decode_eq_ok.mpr ⟨encode v, rfl, spells_encode v, length_groups_le 5 _, v.toNat_lt⟩

/-- Any form of a number but its own groups is longer. -/
theorem eq_groups_or_length_lt {form : List UInt8} {n : Nat} (h : Spells form n) {k : Nat}
    (few : form.length ≤ k) : form = groups k n ∨ (groups k n).length < form.length := by
  induction h generalizing k with
  | @last b low =>
    obtain ⟨k, rfl⟩ := Nat.exists_eq_succ_of_ne_zero (Nat.ne_of_gt few)
    left
    rw [groups, if_pos (low_iff.mp low), UInt8.ofNat_toNat]
  | @more b form n high behind ih =>
    have positive := behind.length_pos
    have byte := high_iff.mp high
    have bound := b.toNat_lt
    rw [List.length_cons] at few
    obtain ⟨k, rfl⟩ := Nat.exists_eq_succ_of_ne_zero (show k ≠ 0 by omega)
    rw [groups]
    split
    · right
      rw [List.length_singleton, List.length_cons]
      omega
    · rw [show 0x80 + (b.toNat % 0x80 + 0x80 * n) % 0x80 = b.toNat by omega, UInt8.ofNat_toNat,
        show (b.toNat % 0x80 + 0x80 * n) / 0x80 = n by omega]
      rcases ih (Nat.le_of_succ_le_succ few) with same | longer
      · exact .inl (congrArg (b :: ·) same)
      · exact .inr (Nat.succ_lt_succ longer)

/-- A number is read from what is written for it and from longer bytes. -/
theorem length_encode_lt {v : UInt32} {bytes rest : List UInt8}
    (h : decode bytes = .ok (v.toNat, rest)) (other : bytes ≠ encode v) :
    (encode v).length < bytes.length := by
  obtain ⟨form, rfl, spells, few, _⟩ := decode_eq_ok.mp h
  rw [List.length_append]
  rcases eq_groups_or_length_lt spells few with same | longer
  · obtain rfl : form = encode v := same
    have behind : 0 < rest.length := by
      refine List.length_pos_iff.mpr fun none => other ?_
      rw [none, List.append_nil]
    omega
  · exact Nat.lt_of_lt_of_le longer (Nat.le_add_right _ _)

/-! ## What is refused -/

/-- There is no number of up to `k + 1` groups at the front of the bytes, for the reason given. -/
def Refused (k : Nat) (bytes : List UInt8) : Fault → Prop
  | .endOfData => bytes.length ≤ k ∧ ∀ b ∈ bytes, 0x80 ≤ b
  | .overflow => (∀ b ∈ bytes.take k, 0x80 ≤ b) ∧ ∃ b, bytes[k]? = some b ∧ 0x0F < b.toNat % 0x80
  | .overlong => (∀ b ∈ bytes.take k, 0x80 ≤ b)
    ∧ ∃ b, bytes[k]? = some b ∧ 0x80 ≤ b ∧ b.toNat % 0x80 ≤ 0x0F

/-- Behind a byte that is not the last, what is refused is refused for what follows. -/
theorem refused_cons {k : Nat} {b : UInt8} {bytes : List UInt8} {fault : Fault} (high : 0x80 ≤ b) :
    Refused (k + 1) (b :: bytes) fault ↔ Refused k bytes fault := by
  cases fault <;> simp [Refused, high]

/-- Nothing is refused for a last byte whose bits have room. -/
theorem not_refused_of_low {k : Nat} {b : UInt8} {bytes : List UInt8} {fault : Fault}
    (low : b < 0x80) (room : k = 0 → b.toNat % 0x80 ≤ 0x0F) : ¬ Refused k (b :: bytes) fault := by
  have single := low_iff.mp low
  cases k with
  | zero =>
    have room := room rfl
    cases fault <;> simp [Refused, high_iff] <;> omega
  | succ k => cases fault <;> simp [Refused, high_iff] <;> omega

/-- Reading on fails where the bytes are refused, and with that fault. -/
theorem decodeFrom_eq_error {k weight sum : Nat} {bytes : List UInt8} {fault : Fault} :
    decodeFrom (k + 1) weight sum bytes = .error fault ↔ Refused k bytes fault := by
  induction bytes generalizing k weight sum with
  | nil => cases fault <;> simp [decodeFrom, Refused]
  | cons b bytes ih =>
    rw [decodeFrom]
    split
    · rename_i large
      obtain ⟨rfl, large⟩ := large
      cases fault <;> simp [Refused, large]
    · rename_i room
      split
      · rename_i low
        exact ⟨nofun, fun refused => absurd refused (not_refused_of_low low (by omega))⟩
      · rename_i high
        cases k with
        | zero =>
          -- another group would have to follow, but none may be read
          have group : b.toNat % 0x80 ≤ 0x0F := by omega
          cases fault <;> simp [decodeFrom, Refused, UInt8.not_lt.mp high, group]
        | succ k => rw [ih, refused_cons (UInt8.not_lt.mp high)]

/-- So does reading a number, which has up to four bytes in front of the last. -/
theorem decode_eq_error {bytes : List UInt8} {fault : Fault} :
    decode bytes = .error fault ↔ Refused 4 bytes fault := decodeFrom_eq_error

/-- The data has ended just if there are fewer than five bytes. -/
theorem endOfData_iff {bytes : List UInt8} {fault : Fault} (h : decode bytes = .error fault) :
    fault = .endOfData ↔ bytes.length < 5 := by
  have refused := decode_eq_error.mp h
  cases fault with
  | endOfData => exact ⟨fun _ => Nat.lt_succ_of_le refused.1, fun _ => rfl⟩
  | overflow | overlong =>
    obtain ⟨_, b, found, _⟩ := refused
    obtain ⟨enough, _⟩ := List.getElem?_eq_some_iff.mp found
    exact ⟨nofun, fun few => by omega⟩

/-! ## Numbers one after another -/

/-- What is read where the numbers stand one after another, from a position on. -/
def writtenSteps (position : Nat) : List UInt32 → List Step
  | [] => []
  | v :: vs =>
    let position := position + (encode v).length
    ⟨.ok v.toNat, position⟩ :: writtenSteps position vs

/-- A number that is read is a step, and the next one starts behind it. -/
theorem decodeAll_of_decode {fuel position n : Nat} {bytes rest : List UInt8}
    (h : decode bytes = .ok (n, rest)) : decodeAll (fuel + 1) position bytes =
      ⟨.ok n, position + (bytes.length - rest.length)⟩
        :: decodeAll fuel (position + (bytes.length - rest.length)) rest := by
  cases bytes with
  | nil => cases h
  | cons b bytes => simp only [decodeAll, h]

/-- As many numbers may be read as there are bytes; more makes no difference. -/
theorem decodeAll_congr {fuel fuel' : Nat} (position : Nat) {bytes : List UInt8}
    (enough : bytes.length ≤ fuel) (enough' : bytes.length ≤ fuel') :
    decodeAll fuel position bytes = decodeAll fuel' position bytes := by
  induction fuel generalizing fuel' position bytes with
  | zero =>
    obtain rfl := List.eq_nil_of_length_eq_zero (Nat.le_zero.mp enough)
    cases fuel' <;> rfl
  | succ fuel ih =>
    cases bytes with
    | nil => cases fuel' <;> rfl
    | cons b bytes =>
      obtain ⟨fuel', rfl⟩ := Nat.exists_eq_succ_of_ne_zero (Nat.ne_of_gt (Nat.lt_of_lt_of_le
        (Nat.succ_pos _) enough'))
      cases read : decode (b :: bytes) with
      | error fault => simp only [decodeAll, read]
      | ok found =>
        obtain ⟨n, rest⟩ := found
        have shorter := length_rest_lt read
        rw [decodeAll_of_decode read, decodeAll_of_decode read,
          ih _ (by omega) (by omega : rest.length ≤ fuel')]

/-- Reading goes on behind the numbers with the fuel that they leave. -/
theorem decodeAll_written (vs : List UInt32) (fuel position : Nat) (rest : List UInt8) :
    decodeAll (fuel + vs.length) position (vs.flatMap encode ++ rest) =
      writtenSteps position vs ++ decodeAll fuel (position + (vs.flatMap encode).length) rest := by
  induction vs generalizing position with
  | nil => rfl
  | cons v vs ih =>
    have taken : (encode v ++ (vs.flatMap encode ++ rest)).length
        - (vs.flatMap encode ++ rest).length = (encode v).length := by
      rw [List.length_append, Nat.add_sub_cancel]
    rw [List.flatMap_cons, List.append_assoc, List.length_cons, ← Nat.add_assoc,
      decodeAll_of_decode (decode_encode v _), taken, ih, List.length_append, Nat.add_assoc]
    rfl

/-- There are no more numbers than bytes. -/
theorem length_le_length_flatMap (vs : List UInt32) : vs.length ≤ (vs.flatMap encode).length := by
  have sum := List.length_le_sum_of_one_le (vs.map fun v => (encode v).length) fun n mem => by
    obtain ⟨v, _, rfl⟩ := List.mem_map.mp mem
    exact (spells_encode v).length_pos
  rwa [List.length_map, ← List.length_flatMap] at sum

/-- Numbers that were written are read one by one, and then what follows them. -/
theorem steps_written (vs : List UInt32) (rest : List UInt8) :
    steps (vs.flatMap encode ++ rest) =
      writtenSteps 0 vs ++ decodeAll rest.length (vs.flatMap encode).length rest := by
  -- no number takes less than a byte, so what stands behind the numbers is left enough fuel
  have few := length_le_length_flatMap vs
  obtain ⟨more, total⟩ : ∃ more, (vs.flatMap encode ++ rest).length = more + vs.length :=
    ⟨_, (Nat.sub_add_cancel (by rw [List.length_append]; omega)).symm⟩
  have enough : rest.length ≤ more := by
    rw [List.length_append] at total
    omega
  rw [steps, total, decodeAll_written, Nat.zero_add, decodeAll_congr _ enough (Nat.le_refl _)]

/-- Numbers are read back from what they are written to, whatever stands behind it, and from
nothing else that is as short. Of all bytes a number is read just where one of the first five
has its high bit clear and the groups up to it add up to a number of 32 bits; where there is
none, the data has ended just if there are fewer than five. -/
theorem coding_groups :
    (∀ (v : UInt32) rest, decode (encode v ++ rest) = .ok (v.toNat, rest))
    ∧ (∀ vs rest, steps (vs.flatMap encode ++ rest) =
      writtenSteps 0 vs ++ decodeAll rest.length (vs.flatMap encode).length rest)
    ∧ (∀ (v : UInt32) bytes rest, decode bytes = .ok (v.toNat, rest) → bytes ≠ encode v →
      (encode v).length < bytes.length)
    ∧ (∀ bytes n rest, decode bytes = .ok (n, rest) ↔ ∃ more last, bytes = more ++ last :: rest
      ∧ more.length < 5 ∧ (∀ b ∈ more, 0x80 ≤ b) ∧ last < 0x80 ∧ n = groupSum (more ++ [last])
      ∧ n < 2 ^ 32)
    ∧ (∀ bytes fault, decode bytes = .error fault ↔ Refused 4 bytes fault)
    ∧ ∀ bytes fault, decode bytes = .error fault → (fault = .endOfData ↔ bytes.length < 5) :=
  ⟨decode_encode, steps_written, fun _ _ _ => length_encode_lt, fun _ _ _ => decode_eq_ok_iff_last,
    fun _ _ => decode_eq_error, fun _ _ => endOfData_iff⟩

/-- A zero in two groups, which is longer than what is written for it; five groups that are too
much for 32 bits, and four that end before the last one. -/
theorem coding_groups_padded :
    decode [0x80, 0x00, 0x07] = .ok (0, [0x07])
      ∧ (encode 0).length < 3
      ∧ decode [0xFF, 0xFF, 0xFF, 0xFF, 0x1F] = .error .overflow
      ∧ (Fault.overflow = .endOfData ↔ 5 < 5)
      ∧ decode [0xFF, 0xFF, 0xFF, 0xFF] = .error .endOfData
      ∧ (Fault.endOfData = .endOfData ↔ 4 < 5) := by
  have padded : decode [0x80, 0x00, 0x07] = .ok (0, [0x07]) := by rfl
  have large : decode [0xFF, 0xFF, 0xFF, 0xFF, 0x1F] = .error .overflow := by rfl
  have cut : decode [0xFF, 0xFF, 0xFF, 0xFF] = .error .endOfData := by rfl
  exact ⟨padded, coding_groups.2.2.1 0 _ _ padded (by decide), large,
    coding_groups.2.2.2.2.2 _ _ large, cut, coding_groups.2.2.2.2.2 _ _ cut⟩

end StubJar.Bytes.Leb128
