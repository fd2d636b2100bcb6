/-!
# CRC-32

The remainder of the bytes, taken as a polynomial over two elements with the
lowest bit in front, after division by the polynomial 0xEDB88320. The
remainders of single bytes are in a table.
-/

namespace StubJar.Digest.Crc32

/-- Divides `n` bits out of a remainder. -/
def divide : Nat → UInt32 → UInt32
  | 0, r => r
  | n + 1, r => divide n (if r &&& 1 == 1 then (r >>> 1) ^^^ 0xEDB88320 else r >>> 1)

/-- The remainders of the single bytes. -/
def table : Array UInt32 := ((List.range 256).map fun b => divide 8 (UInt32.ofNat b)).toArray

/-- Adds one byte to a remainder. -/
def add (r : UInt32) (b : UInt8) : UInt32 :=
  table.getD ((r ^^^ b.toUInt32) &&& 0xFF).toNat 0 ^^^ (r >>> 8)

/-- The checksum of a byte string. -/
def crc32 (bytes : List UInt8) : Nat := (bytes.foldl add 0xFFFFFFFF ^^^ 0xFFFFFFFF).toNat

end StubJar.Digest.Crc32
