import Mathlib.Algebra.Ring.Int.Defs
import Mathlib.Algebra.Ring.Nat
import StubJar.Bytes.Endian

/-!
# Numbers read back from their bytes

A number that fits its width is the number that its bytes spell (`ofLe_le`).
Padding brings an offset up to a multiple (`dvd_add_padding`).
-/

namespace StubJar.Bytes

@[simp] theorem length_le (k n : Nat) : (le k n).length = k := by
  induction k generalizing n with
  | zero => rfl
  | succ k ih => simp [le, ih]

@[simp] theorem length_be (k n : Nat) : (be k n).length = k := by simp [be]

/-- Bytes stand for a number below a power of 256. -/
theorem ofLe_lt (bytes : List UInt8) : ofLe bytes < 256 ^ bytes.length := by
  induction bytes with
  | nil => simp [ofLe]
  | cons b bytes ih =>
    have := b.toNat_lt
    simp only [ofLe, List.length_cons, Nat.pow_succ]
    omega

/-- The bytes of a number spell what is left of it in their width. -/
theorem ofLe_le_mod (k n : Nat) : ofLe (le k n) = n % 256 ^ k := by
  induction k generalizing n with
  | zero => simp [le, ofLe, Nat.mod_one]
  | succ k ih =>
    have low : (UInt8.ofNat n).toNat = n % 256 := by simp
    rw [le, ofLe, ih, low, Nat.pow_succ, Nat.mul_comm (256 ^ k), Nat.mod_mul]

/-- A number that fits its bytes is read back from them. -/
theorem ofLe_le {k n : Nat} (fits : n < 256 ^ k) : ofLe (le k n) = n := by
  rw [ofLe_le_mod, Nat.mod_eq_of_lt fits]

/-- Bytes of one length that spell one number are the same. -/
theorem ofLe_injective {as bs : List UInt8} (length : as.length = bs.length)
    (same : ofLe as = ofLe bs) : as = bs := by
  induction as generalizing bs with
  | nil => exact (List.length_eq_zero_iff.mp length.symm).symm
  | cons a as ih =>
    cases bs with
    | nil => cases length
    | cons b bs =>
      have small_a := a.toNat_lt
      have small_b := b.toNat_lt
      rw [ofLe, ofLe] at same
      have head : a = b := UInt8.toNat_inj.mp (by omega)
      rw [head, ih (Nat.succ.inj length) (by omega)]

/-- Bytes count more by a power of 256 for each byte in front of them. -/
theorem ofLe_append (as bs : List UInt8) :
    ofLe (as ++ bs) = ofLe as + ofLe bs * 256 ^ as.length := by
  induction as with
  | nil => simp [ofLe]
  | cons a as ih =>
    rw [List.cons_append, ofLe, ih, ofLe, List.length_cons, Nat.pow_succ, Nat.mul_add, Nat.add_assoc,
      Nat.mul_left_comm, Nat.mul_comm 256 (256 ^ as.length)]

/-- Zeros count for nothing. -/
theorem ofLe_zeros (n : Nat) : ofLe (List.replicate n 0) = 0 := by
  induction n with
  | zero => rfl
  | succ n ih => simp [List.replicate_succ, ofLe, ih]

/-! ## Padding -/

/-- Padding ends where alignment asks for it. -/
theorem dvd_add_padding {alignment : Nat} (positive : 0 < alignment) (n : Nat) :
    alignment ∣ n + padding alignment n := by
  have rest := Nat.mod_lt n positive
  apply Nat.dvd_of_mod_eq_zero
  by_cases whole : n % alignment = 0
  · rw [padding, whole, Nat.sub_zero, Nat.mod_self, Nat.add_zero, whole]
  · rw [padding, Nat.mod_eq_of_lt (by omega : alignment - n % alignment < alignment), Nat.add_mod,
      Nat.mod_eq_of_lt (by omega : alignment - n % alignment < alignment),
      Nat.add_sub_cancel' (Nat.le_of_lt rest), Nat.mod_self]

/-- What is aligned needs no padding. -/
theorem padding_of_dvd {alignment n : Nat} (aligned : alignment ∣ n) : padding alignment n = 0 := by
  rw [padding, Nat.mod_eq_zero_of_dvd aligned, Nat.sub_zero, Nat.mod_self]

end StubJar.Bytes
