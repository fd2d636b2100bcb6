/-!
# Integers of fixed width in bytes

`le k n` and `be k n` are the `k` low bytes of `n`, lowest or highest first;
`ofLe` adds them up again. Numbers too large for the width lose their high
part, which is what narrowing a count or an index does.
-/

namespace StubJar.Bytes

/-- The `k` low bytes of `n`, lowest first. -/
def le : Nat → Nat → List UInt8
  | 0, _ => []
  | k + 1, n => UInt8.ofNat n :: le k (n / 256)

/-- The `k` low bytes of `n`, highest first. -/
def be (k n : Nat) : List UInt8 := (le k n).reverse

/-- The number whose bytes are given, lowest first. -/
def ofLe : List UInt8 → Nat
  | [] => 0
  | b :: bs => b.toNat + 256 * ofLe bs

/-- How many zero bytes bring `n` up to a multiple of `alignment`. -/
def padding (alignment n : Nat) : Nat := (alignment - n % alignment) % alignment

end StubJar.Bytes
