import StubJar.Bytes.Endian
import StubJar.Digest.Crc32
import StubJar.Jar.Archive

/-!
# Archives as bytes

The entries stand one after another, each behind a record of its own. A
directory at the end repeats the records with the offsets of the entries, and
the last record says where the directory is. Deflated data is cut into blocks
that are kept as they are.
-/

namespace StubJar.Jar

open StubJar.Bytes StubJar.Digest

/-- The most bytes of a block. -/
def blockSize : Nat := 65535

/-- A block of data as it is. -/
def block (isLast : Bool) (data : List UInt8) : List UInt8 :=
  UInt8.ofNat isLast.toNat :: (le 2 data.length ++ le 2 (blockSize - data.length) ++ data)

/-- Data as blocks, all but the last of which are full. The count bounds the
number of those behind the first. -/
def blocks : (further : Nat) → List UInt8 → List (List UInt8)
  | 0, data => [block true data]
  | n + 1, data => block false (data.take blockSize) :: blocks n (data.drop blockSize)

/-- Packed data. -/
def Entry.packed (e : Entry) : List UInt8 :=
  match e.packing with
  | .stored => e.data
  | .deflated => (blocks ((e.data.length - 1) / blockSize) e.data).flatten

/-- The code of a way of packing. -/
def Packing.code : Packing → Nat
  | stored => 0
  | deflated => 8

/-- The fields that both records of an entry have: the version that can read
it, flags for names in UTF-8, packing, the time of the first day that can be
noted, checksum, sizes. -/
def Entry.common (e : Entry) (packedSize : Nat) : List UInt8 :=
  le 2 20 ++ le 2 0x0800 ++ le 2 e.packing.code ++ le 2 0 ++ le 2 0x0021
    ++ le 4 (Crc32.crc32 e.data) ++ le 4 packedSize ++ le 4 e.data.length
    ++ le 2 e.path.utf8ByteSize ++ le 2 0

/-- The record in front of the data of an entry, and the data. -/
def Entry.localRecord (e : Entry) : List UInt8 :=
  let packed := e.packed
  [0x50, 0x4B, 0x03, 0x04] ++ e.common packed.length ++ Text.utf8 e.path ++ packed

/-- The record of an entry in the directory. -/
def Entry.directoryRecord (e : Entry) (offset : Nat) : List UInt8 :=
  [0x50, 0x4B, 0x01, 0x02] ++ le 2 20 ++ e.common e.packed.length ++ le 2 0 ++ le 2 0 ++ le 2 0
    ++ le 4 0 ++ le 4 offset ++ Text.utf8 e.path

/-- The directory of entries of which the first stands at `offset`. -/
def directory (offset : Nat) : List Entry → List UInt8
  | [] => []
  | e :: entries => e.directoryRecord offset ++ directory (offset + e.localRecord.length) entries

/-- The bytes of an archive. -/
def encode (a : Archive) : List UInt8 :=
  let entries := a.entries
  let records := entries.flatMap Entry.localRecord
  let listing := directory 0 entries
  records ++ listing ++ [0x50, 0x4B, 0x05, 0x06] ++ le 2 0 ++ le 2 0 ++ le 2 entries.length
    ++ le 2 entries.length ++ le 4 listing.length ++ le 4 records.length ++ le 2 0

end StubJar.Jar
