import StubJar.Bytes.Endian

/-!
# SHA-1

The message is padded to whole blocks of 64 bytes, the last eight of which
hold its length in bits; each block is expanded to eighty words and stirred
into five running words.
-/

namespace StubJar.Digest.Sha1

open StubJar.Bytes

/-- The five running words. -/
structure State where
  a : UInt32
  b : UInt32
  c : UInt32
  d : UInt32
  e : UInt32

/-- The words before the first block. -/
def State.start : State := ⟨0x67452301, 0xEFCDAB89, 0x98BADCFE, 0x10325476, 0xC3D2E1F0⟩

/-- Rotation to the left by fewer than 32 places. -/
def rotate (n x : UInt32) : UInt32 := (x <<< n) ||| (x >>> (32 - n))

/-- The big-endian words of a byte string. -/
def words : List UInt8 → List UInt32
  | a :: b :: c :: d :: rest =>
    ((a.toUInt32 <<< 24) ||| (b.toUInt32 <<< 16) ||| (c.toUInt32 <<< 8) ||| d.toUInt32)
      :: words rest
  | _ => []

/-- The eighty words of a block: its own sixteen, and each further one from
four before it. -/
def schedule (block : List UInt8) : Array UInt32 :=
  (List.range 64).foldl
    (fun w i => w.push (rotate 1
      (w.getD (i + 13) 0 ^^^ w.getD (i + 8) 0 ^^^ w.getD (i + 2) 0 ^^^ w.getD i 0)))
    (words block).toArray

/-- The mixing function and the constant of a round. -/
def mix (round : Nat) (b c d : UInt32) : UInt32 × UInt32 :=
  if round < 20 then ((b &&& c) ||| (~~~b &&& d), 0x5A827999)
  else if round < 40 then (b ^^^ c ^^^ d, 0x6ED9EBA1)
  else if round < 60 then ((b &&& c) ||| (b &&& d) ||| (c &&& d), 0x8F1BBCDC)
  else (b ^^^ c ^^^ d, 0xCA62C1D6)

/-- One round with its word. -/
def stir (w : Array UInt32) (s : State) (round : Nat) : State :=
  let (f, k) := mix round s.b s.c s.d
  ⟨rotate 5 s.a + f + s.e + k + w.getD round 0, s.a, rotate 30 s.b, s.c, s.d⟩

/-- Stirs one block in. -/
def compress (s : State) (block : List UInt8) : State :=
  let t := (List.range 80).foldl (stir (schedule block)) s
  ⟨s.a + t.a, s.b + t.b, s.c + t.c, s.d + t.d, s.e + t.e⟩

/-- Stirs `n` blocks in. -/
def absorb : Nat → State → List UInt8 → State
  | 0, s, _ => s
  | n + 1, s, bytes => absorb n (compress s (bytes.take 64)) (bytes.drop 64)

/-- The message with its padding, a whole number of blocks. -/
def padded (message : List UInt8) : List UInt8 :=
  let length := message.length
  message ++ (0x80 :: List.replicate (padding 64 (length + 9)) 0 ++ be 8 (8 * length))

/-- The twenty bytes of the digest. -/
def digest (message : List UInt8) : List UInt8 :=
  let bytes := padded message
  let s := absorb (bytes.length / 64) State.start bytes
  [s.a, s.b, s.c, s.d, s.e].flatMap fun word => be 4 word.toNat

end StubJar.Digest.Sha1
