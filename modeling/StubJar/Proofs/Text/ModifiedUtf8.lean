import Mathlib.Data.List.Forall2
import StubJar.Text.ModifiedUtf8

/-!
# Strings read back from their units and bytes

A string is read back from its UTF-16 units (`ofUnits?_units`), so that no two
strings have the same units (`units_injective`), and from its modified UTF-8
form (`ModifiedUtf8.decode_encode`), which holds no zero byte
(`ModifiedUtf8.zero_not_mem_encode`). What the bytes of a unit can be is said by
`ModifiedUtf8.Spells`; the form that is written is one of several.
-/

namespace StubJar.Text

/-! ## Units -/

/-- A character that is one unit is no surrogate. -/
theorem not_surrogate (c : Char) (basic : c.toNat < 0x10000) :
    isHighSurrogate c.toNat = false ∧ isLowSurrogate c.toNat = false := by
  have valid : c.toNat < 0xd800 ∨ 0xdfff < c.toNat ∧ c.toNat < 0x110000 := c.valid
  simp only [isHighSurrogate, isLowSurrogate, Bool.and_eq_false_iff, decide_eq_false_iff_not]
  omega

/-- The units of a character spell it. -/
theorem charsFrom?_charUnits (read : List Char) (c : Char) (us : List Nat) :
    charsFrom? read (charUnits c ++ us) = charsFrom? (c :: read) us := by
  rw [charUnits]
  split
  · rename_i basic
    obtain ⟨high, low⟩ := not_surrogate c basic
    rw [List.singleton_append, charsFrom?.eq_def]
    simp [high, low, Char.ofNat_toNat]
  · rename_i beyond
    have bound : c.toNat < 0x110000 := by
      have valid : c.toNat < 0xd800 ∨ 0xdfff < c.toNat ∧ c.toNat < 0x110000 := c.valid
      omega
    have high : isHighSurrogate (0xD800 + (c.toNat - 0x10000) / 0x400) = true := by
      simp only [isHighSurrogate, Bool.and_eq_true, decide_eq_true_eq]
      omega
    have low : isLowSurrogate (0xDC00 + (c.toNat - 0x10000) % 0x400) = true := by
      simp only [isLowSurrogate, Bool.and_eq_true, decide_eq_true_eq]
      omega
    have pair : pairChar (0xD800 + (c.toNat - 0x10000) / 0x400)
        (0xDC00 + (c.toNat - 0x10000) % 0x400) = c := by
      rw [pairChar, show 0x10000 + (0xD800 + (c.toNat - 0x10000) / 0x400 - 0xD800) * 0x400
        + (0xDC00 + (c.toNat - 0x10000) % 0x400 - 0xDC00) = c.toNat by omega, Char.ofNat_toNat]
    simp [charsFrom?, high, low, pair]

/-- The units of characters are read as the characters. -/
theorem charsFrom?_flatMap (read cs : List Char) :
    charsFrom? read (cs.flatMap charUnits) = some (read.reverse ++ cs) := by
  induction cs generalizing read with
  | nil => simp [charsFrom?]
  | cons c cs ih =>
    rw [List.flatMap_cons, charsFrom?_charUnits, ih]
    simp

/-- A string is read back from its units. -/
@[simp] theorem ofUnits?_units (s : String) : ofUnits? (units s) = some s := by
  simp [ofUnits?, units, charsFrom?_flatMap]

/-- A text is known by its units. -/
theorem units_injective {s t : String} (same : units s = units t) : s = t := by
  have read := ofUnits?_units s
  rw [same, ofUnits?_units] at read
  exact (Option.some.inj read).symm

/-- Units have 16 bits. -/
theorem units_lt {s : String} {u : Nat} (mem : u ∈ units s) : u < 0x10000 := by
  obtain ⟨c, _, hc⟩ := List.mem_flatMap.mp mem
  have valid : c.toNat < 0xd800 ∨ 0xdfff < c.toNat ∧ c.toNat < 0x110000 := c.valid
  rw [charUnits] at hc
  split at hc <;> simp only [List.mem_cons, List.not_mem_nil, or_false] at hc
  · omega
  · omega

namespace ModifiedUtf8

/-! ## Bytes -/

/-- A byte that continues a unit, by its number. -/
def Continues (b : UInt8) : Prop := 0x80 ≤ b.toNat ∧ b.toNat < 0xC0

instance (b : UInt8) : Decidable (Continues b) :=
  inferInstanceAs (Decidable (0x80 ≤ b.toNat ∧ b.toNat < 0xC0))

/-- The bytes are a form of the unit: a byte of seven bits, or a byte that opens the unit and one
or two that continue it with six bits each. The unit may have a shorter form. -/
inductive Spells : List UInt8 → Nat → Prop
  | one {a : UInt8} (positive : 0 < a.toNat) (low : a.toNat < 0x80) : Spells [a] a.toNat
  | two {a b : UInt8} (least : 0xC0 ≤ a.toNat) (most : a.toNat < 0xE0) (second : Continues b) :
    Spells [a, b] ((a.toNat - 0xC0) * 0x40 + (b.toNat - 0x80))
  | three {a b c : UInt8} (least : 0xE0 ≤ a.toNat) (most : a.toNat < 0xF0) (second : Continues b)
    (third : Continues c) :
    Spells [a, b, c] ((a.toNat - 0xE0) * 0x1000 + (b.toNat - 0x80) * 0x40 + (c.toNat - 0x80))

/-- A byte is zero as a number. -/
theorem null_iff {a : UInt8} : a = 0 ↔ a.toNat = 0 := UInt8.toNat_inj.symm

/-- A byte that is a unit is below 128. -/
theorem single_iff {a : UInt8} : a < 0x80 ↔ a.toNat < 0x80 := UInt8.lt_iff_toNat_lt

/-- A byte that goes on is from 128 to 191. -/
theorem continues_iff {b : UInt8} : continues b = true ↔ Continues b := by
  rw [continues, Bool.and_eq_true, decide_eq_true_eq, decide_eq_true_eq]
  exact and_congr UInt8.le_iff_toNat_le UInt8.lt_iff_toNat_lt

/-- A byte that opens two is from 192 to 223. -/
theorem opensTwo_iff {a : UInt8} :
    (0xC0 ≤ a && a < 0xE0) = true ↔ 0xC0 ≤ a.toNat ∧ a.toNat < 0xE0 := by
  rw [Bool.and_eq_true, decide_eq_true_eq, decide_eq_true_eq]
  exact and_congr UInt8.le_iff_toNat_le UInt8.lt_iff_toNat_lt

/-- A byte that opens three is from 224 to 239. -/
theorem opensThree_iff {a : UInt8} :
    (0xE0 ≤ a && a < 0xF0) = true ↔ 0xE0 ≤ a.toNat ∧ a.toNat < 0xF0 := by
  rw [Bool.and_eq_true, decide_eq_true_eq, decide_eq_true_eq]
  exact and_congr UInt8.le_iff_toNat_le UInt8.lt_iff_toNat_lt

/-- What is left of two bytes without their marks is what their low bits say. -/
theorem value_two {a b : Nat} (least : 0xC0 ≤ a) (most : a < 0xE0) (second : 0x80 ≤ b ∧ b < 0xC0) :
    (a - 0xC0) * 0x40 + (b - 0x80) = a % 0x20 * 0x40 + b % 0x40 := by omega

theorem value_three {a b c : Nat} (least : 0xE0 ≤ a) (most : a < 0xF0)
    (second : 0x80 ≤ b ∧ b < 0xC0) (third : 0x80 ≤ c ∧ c < 0xC0) :
    (a - 0xE0) * 0x1000 + (b - 0x80) * 0x40 + (c - 0x80)
      = a % 0x10 * 0x1000 + b % 0x40 * 0x40 + c % 0x40 := by omega

/-- A form of a unit is read as the unit. -/
theorem unitsFrom_spells (pos : Nat) (read : List Nat) {block : List UInt8} {u : Nat}
    (h : Spells block u) (rest : List UInt8) :
    unitsFrom pos read (block ++ rest) = unitsFrom (pos + block.length) (u :: read) rest := by
  cases h with
  | one positive low =>
    rw [List.singleton_append, unitsFrom.eq_def]
    dsimp only
    rw [if_neg (by rw [null_iff]; omega), if_pos (single_iff.mpr low)]
    rfl
  | two least most second =>
    rw [List.cons_append, List.singleton_append, unitsFrom.eq_def, value_two least most second]
    dsimp only
    rw [if_neg (by rw [null_iff]; omega), if_neg (by rw [single_iff]; omega),
      if_pos (opensTwo_iff.mpr ⟨least, most⟩), if_pos (continues_iff.mpr second)]
    rfl
  | three least most second third =>
    rw [List.cons_append, List.cons_append, List.singleton_append, unitsFrom.eq_def,
      value_three least most second third]
    dsimp only
    rw [if_neg (by rw [null_iff]; omega), if_neg (by rw [single_iff]; omega),
      if_neg (by rw [opensTwo_iff]; omega), if_pos (opensThree_iff.mpr ⟨least, most⟩),
      if_pos (continues_iff.mpr second), if_pos (continues_iff.mpr third)]
    rfl

/-- Blocks are read as the units that they spell. -/
theorem unitsFrom_flatten (pos : Nat) (read : List Nat) {blocks : List (List UInt8)} {us : List Nat}
    (each : List.Forall₂ Spells blocks us) :
    unitsFrom pos read blocks.flatten = .ok (read.reverse ++ us) := by
  induction each generalizing pos read with
  | nil => simp [unitsFrom]
  | cons head _ ih =>
    rw [List.flatten_cons, unitsFrom_spells pos read head, ih]
    simp

/-- The form that is written for a unit is one of its forms. -/
theorem spells_encodeUnit {u : Nat} (small : u < 0x10000) : Spells (encodeUnit u) u := by
  rw [encodeUnit]
  split
  · rename_i one
    simp only [Bool.and_eq_true, decide_eq_true_eq] at one
    have byte := UInt8.toNat_ofNat_of_lt' (show u < 256 by omega)
    have spelled := Spells.one (a := UInt8.ofNat u) (by omega) (by omega)
    rwa [byte] at spelled
  · split
    · have lead := UInt8.toNat_ofNat_of_lt' (show 0xC0 + u / 0x40 < 256 by omega)
      have last := UInt8.toNat_ofNat_of_lt' (show 0x80 + u % 0x40 < 256 by omega)
      have spelled := Spells.two (a := UInt8.ofNat (0xC0 + u / 0x40))
        (b := UInt8.ofNat (0x80 + u % 0x40)) (by omega) (by omega) (by unfold Continues; omega)
      rwa [lead, last, show (0xC0 + u / 0x40 - 0xC0) * 0x40 + (0x80 + u % 0x40 - 0x80) = u by omega]
        at spelled
    · have lead := UInt8.toNat_ofNat_of_lt' (show 0xE0 + u / 0x1000 < 256 by omega)
      have middle := UInt8.toNat_ofNat_of_lt' (show 0x80 + u / 0x40 % 0x40 < 256 by omega)
      have last := UInt8.toNat_ofNat_of_lt' (show 0x80 + u % 0x40 < 256 by omega)
      have spelled := Spells.three (a := UInt8.ofNat (0xE0 + u / 0x1000))
        (b := UInt8.ofNat (0x80 + u / 0x40 % 0x40)) (c := UInt8.ofNat (0x80 + u % 0x40))
        (by omega) (by omega) (by unfold Continues; omega) (by unfold Continues; omega)
      rwa [lead, middle, last, show (0xE0 + u / 0x1000 - 0xE0) * 0x1000
        + (0x80 + u / 0x40 % 0x40 - 0x80) * 0x40 + (0x80 + u % 0x40 - 0x80) = u by omega] at spelled

/-- What is written for a text are blocks for its units. -/
theorem spells_encode (s : String) :
    List.Forall₂ Spells ((units s).map encodeUnit) (units s) := by
  rw [List.forall₂_map_left_iff, List.forall₂_same]
  exact fun u mem => spells_encodeUnit (units_lt mem)

/-- It is the blocks in a row. -/
theorem encode_eq_flatten (s : String) : encode s = ((units s).map encodeUnit).flatten :=
  List.flatMap_def

/-- A string is read back from its bytes. -/
theorem decode_encode (s : String) : decode (encode s) = .ok s := by
  rw [decode, encode_eq_flatten, unitsFrom_flatten 0 [] (spells_encode s)]
  simp

/-- No block holds a zero byte. -/
theorem zero_not_mem_of_spells {block : List UInt8} {u : Nat} (h : Spells block u) : 0 ∉ block := by
  have positive {a : UInt8} (least : 0 < a.toNat) : (0 : UInt8) ≠ a := by
    rintro rfl
    cases least
  cases h with
  | one least low => simpa using positive least
  | two least most second =>
    unfold Continues at second
    simpa using ⟨positive (by omega), positive (by omega)⟩
  | three least most second third =>
    unfold Continues at second third
    simpa using ⟨positive (by omega), positive (by omega), positive (by omega)⟩

/-- The bytes of a string can be closed by a zero byte. -/
theorem zero_not_mem_encode (s : String) : 0 ∉ encode s := by
  intro mem
  obtain ⟨u, hu, h⟩ := List.mem_flatMap.mp mem
  exact zero_not_mem_of_spells (spells_encodeUnit (units_lt hu)) h

/-- A text has no more units than bytes. -/
theorem length_units_le (s : String) : (units s).length ≤ (encode s).length := by
  rw [encode]
  induction units s with
  | nil => simp
  | cons u us ih =>
    have head : 1 ≤ (encodeUnit u).length := by
      rw [encodeUnit]
      split
      · simp
      · split <;> simp
    simp only [List.flatMap_cons, List.length_append, List.length_cons]
    omega

end ModifiedUtf8

end StubJar.Text
