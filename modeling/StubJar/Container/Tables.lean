import StubJar.Container.Decoder
import StubJar.Container.Format
import StubJar.Dalvik.File
import StubJar.Digest.Adler32
import StubJar.Text.Utf8

/-!
# Reading the header and the tables

The header is checked before anything else is read, in a fixed order: size,
magic, version, order of bytes, declared size, checksum. Bytes behind the
declared size are cut off. The tables follow in the order in which they refer
to each other; method handles are found through the map.
-/

namespace StubJar.Container

open StubJar.Bytes StubJar.Digest StubJar.Dalvik

/-- The number of four bytes at an offset. -/
def wordAt (bytes : List UInt8) (offset : Nat) : Nat := ofLe ((bytes.drop offset).take 4)

/-- The version that three digits name. -/
def versionOf (digits : List UInt8) : Except DecodeFault Nat :=
  let text := Text.lossy digits
  match Text.natural? text.toList with
  | some version =>
    if 35 ≤ version && version ≤ 39 then .ok version else .error (.unsupportedVersion text)
  | none => .error (.unsupportedVersion text)

/-- Refuses bytes for a cause unless a condition holds. -/
def require (condition : Bool) (fault : DecodeFault) : Except DecodeFault Unit :=
  if condition then .ok () else .error fault

/-- Checks the header. Gives the version and the bytes up to the declared
size. -/
def checkHeader (bytes : List UInt8) : Except DecodeFault (Nat × List UInt8) := do
  let available := bytes.length
  require (headerSize ≤ available) (.malformed (.noHeader available))
  let lead := bytes.take 8
  require (lead.take 4 == magic && lead.drop 7 == [0]) (.badMagic lead)
  let version ← versionOf ((lead.drop 4).take 3)
  let tag := wordAt bytes Header.endianTag
  require (tag == endianTag) (.badEndianTag tag)
  let declared := wordAt bytes Header.fileSize
  require (declared ≤ available && headerSize ≤ declared) (.sizeMismatch declared available)
  let bytes := bytes.take declared
  let expected := wordAt bytes Header.checksum
  let computed := adler32 (bytes.drop Header.signature)
  require (expected == computed) (.checksumMismatch expected computed)
  return (version, bytes)

/-- The tables of a container, resolved. -/
structure Tables where
  strings : Array String
  types : Array Descriptor
  prototypes : Array Prototype
  fields : Array FieldRef
  methods : Array MethodRef
  handles : Array MethodHandle

/-- The item of a table at an index. -/
def entry {α : Type} (table : TableName) (items : Array α) (index : Nat) :
    Except DecodeFault α :=
  match items[index]? with
  | some a => .ok a
  | none => .error (.indexOutOfRange table index)

namespace Tables

/-- The tables before anything is read. -/
def empty : Tables := ⟨#[], #[], #[], #[], #[], #[]⟩

/-- The string of an index. -/
def string (t : Tables) (index : Nat) : Except DecodeFault String :=
  entry .strings t.strings index

/-- The type of an index. -/
def type (t : Tables) (index : Nat) : Except DecodeFault Descriptor :=
  entry .types t.types index

/-- The prototype of an index. -/
def prototype (t : Tables) (index : Nat) : Except DecodeFault Prototype :=
  entry .prototypes t.prototypes index

/-- The field of an index. -/
def field (t : Tables) (index : Nat) : Except DecodeFault FieldRef :=
  entry .fields t.fields index

/-- The method of an index. -/
def method (t : Tables) (index : Nat) : Except DecodeFault MethodRef :=
  entry .methods t.methods index

/-- The method handle of an index. -/
def handle (t : Tables) (index : Nat) : Except DecodeFault MethodHandle :=
  entry .handles t.handles index

end Tables

/-- The string at an offset: its length in UTF-16 units, its bytes, a zero
byte. -/
def stringAt (image : Image) (offset : Nat) : Except DecodeFault String :=
  image.decodeAt offset do
    let declared ← Decoder.uleb
    let input ← get
    if (input.dropWhile (· != 0)).isEmpty then
      throw (.malformedString offset .unterminated)
    match Text.ModifiedUtf8.decode (input.takeWhile (· != 0)) with
    | .error cause => throw (.malformedString offset (.undecodable cause))
    | .ok s =>
      let found := (Text.units s).length
      if found != declared then
        throw (.malformedString offset (.wrongLength declared found))
      return s

/-- The list of types at an offset. -/
def typesAt (image : Image) (t : Tables) (offset : Nat) : Except DecodeFault (List Descriptor) :=
  image.listAt offset do
    let size ← Decoder.number 4
    Decoder.times size do
      let index ← Decoder.number 2
      t.type index

/-! The rows of the tables. -/

/-- The row of a string: where it is. -/
def stringRow (image : Image) : Decoder String := do
  let offset ← Decoder.number 4
  stringAt image offset

/-- The row of a type: its text. -/
def typeRow (t : Tables) : Decoder Descriptor := do
  let index ← Decoder.number 4
  return ⟨← t.string index⟩

/-- The row of a prototype: its letters, which follow from the rest, its
result, and where its parameters are. -/
def prototypeRow (image : Image) (t : Tables) : Decoder Prototype := do
  let _ ← Decoder.number 4
  let result ← Decoder.number 4
  let parameters ← Decoder.number 4
  return ⟨← t.type result, ← typesAt image t parameters⟩

/-- The row of a field: class, type, name. -/
def fieldRow (t : Tables) : Decoder FieldRef := do
  let owner ← Decoder.number 2
  let type ← Decoder.number 2
  let name ← Decoder.number 4
  return ⟨← t.type owner, ← t.string name, ← t.type type⟩

/-- The row of a method: class, prototype, name. -/
def methodRow (t : Tables) : Decoder MethodRef := do
  let owner ← Decoder.number 2
  let prototype ← Decoder.number 2
  let name ← Decoder.number 4
  return ⟨← t.type owner, ← t.string name, ← t.prototype prototype⟩

/-- The row of a method handle: kind and member, each followed by two bytes
without a meaning. -/
def handleRow (t : Tables) : Decoder MethodHandle := do
  let code ← Decoder.number 2
  let _ ← Decoder.number 2
  let member ← Decoder.number 2
  let _ ← Decoder.number 2
  match HandleKind.ofCode? code with
  | none => throw (.malformed (.unknownHandleKind code))
  | some kind =>
    if kind.isFieldAccessor then return ⟨kind, .field (← t.field member)⟩
    else return ⟨kind, .method (← t.method member)⟩

/-- An entry of the map; the handles are read where it says so. -/
def mapEntry (image : Image) (t : Tables) : Decoder (List MethodHandle) := do
  let code ← Decoder.number 2
  let _ ← Decoder.number 2
  let size ← Decoder.number 4
  let offset ← Decoder.number 4
  if code = ItemKind.methodHandle.mapCode then
    image.decodeAt offset (Decoder.times size (handleRow t))
  else return []

/-- The rows of the table whose size and offset stand at a field of the
header. -/
def rowsAt {α : Type} (image : Image) (bytes : List UInt8) (field : Nat) (row : Decoder α) :
    Except DecodeFault (Array α) := do
  let size := wordAt bytes field
  let offset := wordAt bytes (field + 4)
  return (← image.decodeAt offset (Decoder.times size row)).toArray

/-- The tables of a container. -/
def readTables (bytes : List UInt8) (image : Image) : Except DecodeFault Tables := do
  let t := Tables.empty
  let t := { t with strings := ← rowsAt image bytes Header.strings (stringRow image) }
  let t := { t with types := ← rowsAt image bytes Header.types (typeRow t) }
  let t := { t with prototypes := ← rowsAt image bytes Header.prototypes (prototypeRow image t) }
  let t := { t with fields := ← rowsAt image bytes Header.fields (fieldRow t) }
  let t := { t with methods := ← rowsAt image bytes Header.methods (methodRow t) }
  let map := wordAt bytes Header.map
  let handles ← image.listAt map do
    let size ← Decoder.number 4
    Decoder.times size (mapEntry image t)
  return { t with handles := handles.flatten.toArray }

/-- A container whose header is checked and whose tables are read. -/
structure Opened where
  version : Nat
  bytes : List UInt8
  image : Image
  tables : Tables

/-- Checks the header and reads the tables. -/
def openContainer (bytes : List UInt8) : Except DecodeFault Opened := do
  let (version, bytes) ← checkHeader bytes
  let image := Image.ofBytes bytes
  return ⟨version, bytes, image, ← readTables bytes image⟩

end StubJar.Container
