/-!
# Unsigned LEB128

A 32-bit number in groups of seven bits, lowest group first; the high bit of
a byte says that another group follows. Writing uses the fewest groups.
Reading accepts up to five groups, of which the last has room for four bits
only.
-/

namespace StubJar.Bytes.Leb128

/-- The groups of `n`, at most `k` of them. -/
def groups : Nat → Nat → List UInt8
  | 0, _ => []
  | k + 1, n =>
    if n < 0x80 then [UInt8.ofNat n]
    else UInt8.ofNat (0x80 + n % 0x80) :: groups k (n / 0x80)

/-- The encoded form of a number. -/
def encode (v : UInt32) : List UInt8 := groups 5 v.toNat

/-- Why bytes do not start with a number. -/
inductive Fault where
  /-- The bytes end before the last group. -/
  | endOfData
  /-- The fifth group holds more than four bits. -/
  | overflow
  /-- The fifth group says that another one follows. -/
  | overlong
deriving DecidableEq, Repr

/-- The wording of a fault. -/
def Fault.message : Fault → String
  | .endOfData => "failed to fill whole buffer"
  | .overflow => "uleb128 overflows 32 bits"
  | .overlong => "uleb128 longer than 5 bytes"

/-- How many of `available` bytes a failing read has passed over: all of them
when it ran out, five groups otherwise. -/
def Fault.consumed (available : Nat) : Fault → Nat
  | .endOfData => available
  | .overflow | .overlong => 5

/-- Adds up to `k` further groups to `sum`, the next one counting `weight`
times; gives the number and the bytes behind it. -/
def decodeFrom : Nat → Nat → Nat → List UInt8 → Except Fault (Nat × List UInt8)
  | 0, _, _, _ => .error .overlong
  | _ + 1, _, _, [] => .error .endOfData
  | k + 1, weight, sum, b :: rest =>
    if k = 0 ∧ 0x0F < b.toNat % 0x80 then .error .overflow
    else if b < 0x80 then .ok (sum + b.toNat * weight, rest)
    else decodeFrom k (weight * 0x80) (sum + b.toNat % 0x80 * weight) rest

/-- The number at the front of the bytes, and the bytes behind it. -/
def decode (bytes : List UInt8) : Except Fault (Nat × List UInt8) := decodeFrom 5 1 0 bytes

/-- One of several numbers read one after another: what was read, and how
many bytes were passed over so far. -/
structure Step where
  result : Except Fault Nat
  position : Nat

/-- Reads numbers until the bytes end or one read fails. -/
def decodeAll (fuel position : Nat) (bytes : List UInt8) : List Step :=
  match fuel, bytes with
  | 0, _ => []
  | _, [] => []
  | fuel + 1, bytes =>
    match decode bytes with
    | .ok (n, rest) =>
      let position := position + (bytes.length - rest.length)
      ⟨.ok n, position⟩ :: decodeAll fuel position rest
    | .error fault => [⟨.error fault, position + fault.consumed bytes.length⟩]

/-- Every number of a byte string, up to the first that fails. Each takes at
least one byte, so there are no more of them than bytes. -/
def steps (bytes : List UInt8) : List Step := decodeAll bytes.length 0 bytes

end StubJar.Bytes.Leb128
