import StubJar.Container.Pool
import StubJar.Container.Tables

/-!
# The form of constant values

A value starts with a byte that holds its kind and, for most kinds, how many
bytes follow. Writing takes the fewest bytes from which the value can be
extended again: a signed number by its sign, an unsigned number or an index
by zeros at the high end, a floating-point number by zeros at the low end.
Reading accepts every size up to the width of the kind.
-/

namespace StubJar.Container

open StubJar.Bytes StubJar.Dalvik StubJar.Order

/-- The form of a number of 32 bits with a variable length. -/
def uleb (n : Nat) : List UInt8 := Leb128.encode (UInt32.ofNat n)

/-! ## Writing -/

/-- The fewest bytes, of at most `k` more than `size`, that extend to `v` by
its sign. -/
def signedSize (v : Int) : (k size : Nat) → Nat
  | 0, size => size
  | k + 1, size => if Int.bmod v (Nat.pow 256 size) = v then size else signedSize v k (size + 1)

/-- The shortest form of a signed number of at most 64 bits. -/
def shortestSigned (v : Int) : List UInt8 :=
  let size := signedSize v 7 1
  le size (v % Nat.pow 256 size).toNat

/-- The fewest bytes, of at most `k` more than `size`, that hold `n`. -/
def unsignedSize (n : Nat) : (k size : Nat) → Nat
  | 0, size => size
  | k + 1, size => if n < Nat.pow 256 size then size else unsignedSize n k (size + 1)

/-- The shortest form of an unsigned number of at most 64 bits. -/
def shortestUnsigned (n : Nat) : List UInt8 := le (unsignedSize n 7 1) n

/-- The bytes without the zeros in front; the last byte stays. -/
def dropLowZeros : List UInt8 → List UInt8
  | [] => []
  | [b] => [b]
  | b :: bytes => if b = 0 then dropLowZeros bytes else b :: bytes

/-- A value of which the first byte says how many bytes follow. -/
def withSize (kind : ValueKind) (bytes : List UInt8) : List UInt8 :=
  UInt8.ofNat ((bytes.length - 1) * 0x20 + kind.code) :: bytes

/-- A value that is an index. -/
def indexed (kind : ValueKind) (index : Nat) : List UInt8 := withSize kind (shortestUnsigned index)

/-- Counted forms, one after another. -/
def counted (forms : List (List UInt8)) : List UInt8 := uleb forms.length ++ forms.flatten

/-- The forms of elements, ordered by the indices of their names. -/
def orderedElements (elements : List (Nat × List UInt8)) : List (List UInt8) :=
  (sortOn (fun (name, _) => [name]) elements).map fun (name, form) => uleb name ++ form

mutual

/-- The form of a value. -/
def encodeValue (p : Pool) : Value → List UInt8
  | .byte v => withSize .byte [v.toUInt8]
  | .short v => withSize .short (shortestSigned v.toInt)
  | .char u => withSize .char (shortestUnsigned u.toNat)
  | .int v => withSize .int (shortestSigned v.toInt)
  | .long v => withSize .long (shortestSigned v.toInt)
  | .float bits => withSize .float (dropLowZeros (le 4 bits.toNat))
  | .double bits => withSize .double (dropLowZeros (le 8 bits.toNat))
  | .methodType q => indexed .methodType (p.prototype q)
  | .methodHandle h => indexed .methodHandle (p.handle h)
  | .string s => indexed .string (p.string s)
  | .type d => indexed .type (p.type d)
  | .field f => indexed .field (p.field f)
  | .method m => indexed .method (p.method m)
  | .enum f => indexed .enum (p.field f)
  | .array items => UInt8.ofNat ValueKind.array.code :: counted (encodeValues p items)
  | .nested d elements =>
    UInt8.ofNat ValueKind.nested.code
      :: (uleb (p.type d) ++ counted (orderedElements (encodeElements p elements)))
  | .null => [UInt8.ofNat ValueKind.null.code]
  | .boolean b => [UInt8.ofNat (b.toNat * 0x20 + ValueKind.boolean.code)]

/-- The forms of a list of values. -/
def encodeValues (p : Pool) : List Value → List (List UInt8)
  | [] => []
  | v :: vs => encodeValue p v :: encodeValues p vs

/-- The forms of the values of elements, with the indices of their names. -/
def encodeElements (p : Pool) : List (String × Value) → List (Nat × List UInt8)
  | [] => []
  | (name, v) :: elements => (p.string name, encodeValue p v) :: encodeElements p elements

end

/-- The form of a list of values. -/
def encodeArray (p : Pool) (values : List Value) : List UInt8 := counted (encodeValues p values)

/-- The form of an annotation: who sees it, its type, its elements. -/
def encodeAnnotationItem (p : Pool) (a : Annotation) : List UInt8 :=
  UInt8.ofNat a.visibility.code
    :: (uleb (p.type a.type) ++ counted (orderedElements (encodeElements p a.elements)))

/-! ## Reading -/

/-- A number of bytes that a kind may have. -/
def payload (kind : ValueKind) (arg : Nat) : Decoder Nat :=
  if kind.maxSize < arg + 1 then throw (.malformedValue kind.code arg)
  else Decoder.number (arg + 1)

/-- A number of bytes, extended by its sign. -/
def signedPayload (kind : ValueKind) (arg : Nat) : Decoder Int :=
  return Int.bmod (← payload kind arg) (Nat.pow 256 (arg + 1))

/-- A number of bytes, extended by zeros at its low end. -/
def highPayload (kind : ValueKind) (arg : Nat) : Decoder Nat :=
  return (← payload kind arg) * Nat.pow 256 (kind.maxSize - (arg + 1))

/-- Refuses a size other than those that a kind without further bytes
has. -/
def plain (kind : ValueKind) (arg limit : Nat) : Decoder Unit :=
  if limit < arg then throw (.malformedValue kind.code arg) else return ()

/-- A counted list. -/
def countedList {α : Type} (item : Decoder α) : Decoder (List α) := do
  let size ← Decoder.uleb
  Decoder.times size item

/-- The type and the elements of an annotation. -/
def annotationParts (t : Tables) (value : Decoder Value) :
    Decoder (Descriptor × List (String × Value)) := do
  let type ← Decoder.uleb
  let size ← Decoder.uleb
  let type ← t.type type
  let elements ← Decoder.times size do
    let name ← Decoder.uleb
    let name ← t.string name
    return (name, ← value)
  return (type, elements)

/-- Reads a value in which values are nested less than `depth` deep. Each
level of nesting takes a byte, so the size of the input is depth enough. -/
def decodeValue (t : Tables) : (depth : Nat) → Decoder Value
  | 0 => throw (.unreadable .endOfData)
  | depth + 1 => do
    let lead ← Decoder.number 1
    let code := lead % 0x20
    let arg := lead / 0x20
    match ValueKind.ofCode? code with
    | none => throw (.malformedValue code arg)
    | some .byte => return .byte (Int8.ofInt (← signedPayload .byte arg))
    | some .short => return .short (Int16.ofInt (← signedPayload .short arg))
    | some .char => return .char (UInt16.ofNat (← payload .char arg))
    | some .int => return .int (Int32.ofInt (← signedPayload .int arg))
    | some .long => return .long (Int64.ofInt (← signedPayload .long arg))
    | some .float => return .float (UInt32.ofNat (← highPayload .float arg))
    | some .double => return .double (UInt64.ofNat (← highPayload .double arg))
    | some .methodType => return .methodType (← t.prototype (← payload .methodType arg))
    | some .methodHandle => return .methodHandle (← t.handle (← payload .methodHandle arg))
    | some .string => return .string (← t.string (← payload .string arg))
    | some .type => return .type (← t.type (← payload .type arg))
    | some .field => return .field (← t.field (← payload .field arg))
    | some .method => return .method (← t.method (← payload .method arg))
    | some .enum => return .enum (← t.field (← payload .enum arg))
    | some .array =>
      plain .array arg 0
      return .array (← countedList (decodeValue t depth))
    | some .nested =>
      plain .nested arg 0
      let (type, elements) ← annotationParts t (decodeValue t depth)
      return .nested type elements
    | some .null =>
      plain .null arg 0
      return .null
    | some .boolean =>
      plain .boolean arg 1
      return .boolean (arg == 1)

/-- Reads an annotation with its visibility. -/
def decodeAnnotationItem (t : Tables) (depth : Nat) : Decoder Annotation := do
  let code ← Decoder.number 1
  match Visibility.ofCode? code with
  | none => throw (.malformed (.unknownVisibility code))
  | some visibility =>
    let (type, elements) ← annotationParts t (decodeValue t depth)
    return ⟨visibility, type, elements⟩

end StubJar.Container
