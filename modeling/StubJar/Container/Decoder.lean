import StubJar.Bytes.Endian
import StubJar.Container.Fault

/-!
# Decoders

A decoder reads something off the front of a byte list and leaves the rest.
Offsets lead elsewhere in the same bytes, so an `Image` keeps every suffix of
them: reading at an offset is decoding the suffix that starts there.
-/

namespace StubJar.Container

open StubJar.Bytes

/-- Reads a value off the front of a byte list. -/
abbrev Decoder := StateT (List UInt8) (Except DecodeFault)

/-- The first `n` bytes and the bytes behind them. -/
def split? : Nat → List UInt8 → Option (List UInt8 × List UInt8)
  | 0, bytes => some ([], bytes)
  | _ + 1, [] => none
  | n + 1, b :: bytes => (split? n bytes).map fun (front, rest) => (b :: front, rest)

namespace Decoder

variable {α σ : Type}

/-- The next `n` bytes. -/
def bytes (n : Nat) : Decoder (List UInt8) := fun input =>
  match split? n input with
  | some (front, rest) => .ok (front, rest)
  | none => .error (.unreadable .endOfData)

/-- A number of `n` bytes, lowest first. -/
def number (n : Nat) : Decoder Nat := return ofLe (← bytes n)

/-- A number of variable length. -/
def uleb : Decoder Nat := fun input =>
  match Leb128.decode input with
  | .ok found => .ok found
  | .error fault => .error (.unreadable fault)

/-- Reads `n` things one after another behind those already read (kept in
reverse), with a state that each of them may change. -/
def unfoldFrom (step : σ → Decoder (α × σ)) :
    Nat → σ → List α → List UInt8 → Except DecodeFault ((List α × σ) × List UInt8)
  | 0, s, read, input => .ok ((read.reverse, s), input)
  | n + 1, s, read, input =>
    match step s input with
    | .ok ((a, s'), rest) => unfoldFrom step n s' (a :: read) rest
    | .error fault => .error fault

/-- Reads `n` things one after another, with a state that each of them may
change. -/
def unfold (step : σ → Decoder (α × σ)) (n : Nat) (s : σ) : Decoder (List α × σ) :=
  unfoldFrom step n s []

/-- Reads `n` things one after another. -/
def times (n : Nat) (d : Decoder α) : Decoder (List α) := do
  let (found, _) ← unfold (fun _ => do return (← d, ())) n ()
  return found

end Decoder

/-- The bytes of a container, every suffix of them at its offset. -/
structure Image where
  suffixes : Array (List UInt8)

namespace Image

/-- The suffixes of `bytes` behind those already found. -/
def suffixesFrom (found : Array (List UInt8)) : List UInt8 → Array (List UInt8)
  | [] => found.push []
  | b :: bytes => suffixesFrom (found.push (b :: bytes)) bytes

/-- The image of a byte list. -/
def ofBytes (bytes : List UInt8) : Image := ⟨suffixesFrom #[] bytes⟩

/-- Decodes at an offset, which may be the end of the bytes but not lie
behind it. -/
def decodeAt {α : Type} (image : Image) (offset : Nat) (d : Decoder α) : Except DecodeFault α :=
  match image.suffixes[offset]? with
  | some input => (d input).map Prod.fst
  | none => .error (.malformed (.offsetPastEnd offset))

/-- Decodes a list at an offset; offset zero stands for the empty list. -/
def listAt {α : Type} (image : Image) (offset : Nat) (d : Decoder (List α)) :
    Except DecodeFault (List α) :=
  if offset = 0 then .ok [] else image.decodeAt offset d

end Image

end StubJar.Container
