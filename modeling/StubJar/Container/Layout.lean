import StubJar.Bytes.Endian
import StubJar.Container.Format

/-!
# Runs of items

Items of one kind stand in one run behind the items of the kinds before. An
item starts at a multiple of the alignment of its kind, with zero bytes in
front where they are needed, and its offset is known as soon as it is placed.
-/

namespace StubJar.Container

open StubJar.Bytes

/-- Items of one kind, the first of them placed at `start` or as soon behind
it as its alignment allows. -/
structure Run where
  kind : ItemKind
  start : Nat
  offsets : Array Nat
  bytes : Array UInt8

namespace Run

/-- A run without items. -/
def empty (kind : ItemKind) (start : Nat) : Run := ⟨kind, start, #[], #[]⟩

/-- The offset behind the last byte. -/
def stop (r : Run) : Nat := r.start + r.bytes.size

/-- How many zero bytes stand in front of the next item. -/
def gap (r : Run) : Nat := padding r.kind.alignment r.stop

/-- Where the next item will be placed. -/
def next (r : Run) : Nat := r.stop + r.gap

/-- Places an item. -/
def add (r : Run) (item : List UInt8) : Run :=
  let gap := r.gap
  let next := r.stop + gap
  ⟨r.kind, r.start, r.offsets.push next, r.bytes ++ List.replicate gap (0 : UInt8) ++ item⟩

/-- The run of the given items. -/
def ofItems (kind : ItemKind) (start : Nat) (items : List (List UInt8)) : Run :=
  items.foldl add (empty kind start)

/-- Places an item if there is one, and notes its offset; zero stands for no
item. -/
def addIfAny (s : Run × Array Nat) : Option (List UInt8) → Run × Array Nat
  | none => (s.1, s.2.push 0)
  | some item =>
    let next := s.1.next
    (s.1.add item, s.2.push next)

/-- The run of the items that are there, with an offset for each that might
have been. -/
def ofOptional (kind : ItemKind) (start : Nat) (items : List (Option (List UInt8))) :
    Run × Array Nat :=
  items.foldl addIfAny (empty kind start, #[])

end Run

/-- What the map says about a kind of item: how many there are, and the
offset of the first. -/
structure MapEntry where
  kind : ItemKind
  size : Nat
  offset : Nat
deriving DecidableEq, Repr

/-- The entry of a run. -/
def Run.mapEntry (r : Run) : MapEntry := ⟨r.kind, r.offsets.size, r.offsets.getD 0 0⟩

/-- The twelve bytes of an entry. -/
def MapEntry.encode (e : MapEntry) : List UInt8 :=
  le 2 e.kind.mapCode ++ le 2 0 ++ le 4 e.size ++ le 4 e.offset

/-- A map of the given entries. -/
def encodeMap (entries : List MapEntry) : List UInt8 :=
  le 4 entries.length ++ entries.flatMap MapEntry.encode

end StubJar.Container
