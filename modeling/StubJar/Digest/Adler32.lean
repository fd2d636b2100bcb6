/-!
# Adler-32

Two sums modulo 65521, the largest prime below 2^16: `low` adds the bytes
up, starting at one, and `high` adds up the values that `low` takes.
-/

namespace StubJar.Digest

/-- The two running sums. -/
structure Adler where
  low : Nat
  high : Nat
deriving DecidableEq, Repr

/-- The sums before the first byte. -/
def Adler.start : Adler := ⟨1, 0⟩

/-- Adds one byte. -/
def Adler.add (s : Adler) (b : UInt8) : Adler :=
  let low := (s.low + b.toNat) % 65521
  ⟨low, (s.high + low) % 65521⟩

/-- The checksum of a byte string. -/
def adler32 (bytes : List UInt8) : Nat :=
  let s := bytes.foldl Adler.add Adler.start
  s.high * 65536 + s.low

end StubJar.Digest
