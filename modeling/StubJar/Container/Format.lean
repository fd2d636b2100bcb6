/-!
# The layout of a container

A container starts with a header of fixed size. Behind it stand the tables
that indices point into, then the items that the tables point at by offset,
and last a map that lists every kind of item once. All numbers have their
lowest byte first.
-/

namespace StubJar.Container

/-- The bytes before the version digits. -/
def magic : List UInt8 := [0x64, 0x65, 0x78, 0x0A]

/-- How many bytes the header has. -/
def headerSize : Nat := 0x70

/-- The number by which the order of bytes is recognised. -/
def endianTag : Nat := 0x12345678

/-- The index that stands for no index. -/
def noIndex : Nat := 0xFFFFFFFF

/-! Where the fields of the header stand. A section takes two fields, the
number of its items and the offset of the first. -/

namespace Header

/-- The checksum of all that follows it. -/
def checksum : Nat := 8

/-- The digest of all that follows it. -/
def signature : Nat := 12

/-- The number of bytes of the container. -/
def fileSize : Nat := 32

/-- The number that shows the order of bytes. -/
def endianTag : Nat := 40

/-- The offset of the map. -/
def map : Nat := 52

/-- The section of strings. -/
def strings : Nat := 56

/-- The section of types. -/
def types : Nat := 64

/-- The section of prototypes. -/
def prototypes : Nat := 72

/-- The section of fields. -/
def fields : Nat := 80

/-- The section of methods. -/
def methods : Nat := 88

/-- The section of classes. -/
def classes : Nat := 96

end Header

/-- The kinds of items that the map lists. -/
inductive ItemKind where
  | header
  | stringId
  | typeId
  | protoId
  | fieldId
  | methodId
  | classDef
  | methodHandle
  | mapList
  | typeList
  | annotationSetRefList
  | annotationSet
  | classData
  | code
  | stringData
  | annotationItem
  | encodedArray
  | annotationsDirectory
deriving DecidableEq, Repr

namespace ItemKind

/-- The code of a kind in the map. -/
def mapCode : ItemKind → Nat
  | header => 0x0000
  | stringId => 0x0001
  | typeId => 0x0002
  | protoId => 0x0003
  | fieldId => 0x0004
  | methodId => 0x0005
  | classDef => 0x0006
  | methodHandle => 0x0008
  | mapList => 0x1000
  | typeList => 0x1001
  | annotationSetRefList => 0x1002
  | annotationSet => 0x1003
  | classData => 0x2000
  | code => 0x2001
  | stringData => 0x2002
  | annotationItem => 0x2004
  | encodedArray => 0x2005
  | annotationsDirectory => 0x2006

/-- What the offset of an item is a multiple of. -/
def alignment : ItemKind → Nat
  | annotationItem | encodedArray | classData | stringData => 1
  | _ => 4

/-- How many bytes a row of a table takes; items of other kinds have no fixed
size. -/
def rowSize : ItemKind → Nat
  | stringId | typeId => 4
  | fieldId | methodId | methodHandle => 8
  | protoId => 12
  | classDef => 32
  | _ => 0

end ItemKind

/-- The kinds of values. -/
inductive ValueKind where
  | byte
  | short
  | char
  | int
  | long
  | float
  | double
  | methodType
  | methodHandle
  | string
  | type
  | field
  | method
  | enum
  | array
  | nested
  | null
  | boolean
deriving DecidableEq, Repr

namespace ValueKind

/-- The code of a kind, the low five bits of the first byte of a value. -/
def code : ValueKind → Nat
  | byte => 0x00
  | short => 0x02
  | char => 0x03
  | int => 0x04
  | long => 0x06
  | float => 0x10
  | double => 0x11
  | methodType => 0x15
  | methodHandle => 0x16
  | string => 0x17
  | type => 0x18
  | field => 0x19
  | method => 0x1A
  | enum => 0x1B
  | array => 0x1C
  | nested => 0x1D
  | null => 0x1E
  | boolean => 0x1F

/-- Every kind, in the order of the codes. -/
def all : List ValueKind :=
  [byte, short, char, int, long, float, double, methodType, methodHandle, string, type, field,
    method, enum, array, nested, null, boolean]

/-- The kind that a code stands for. -/
def ofCode? (code : Nat) : Option ValueKind := all.find? (·.code == code)

/-- How many bytes may follow the first; zero for a kind whose size is not
said in the first byte. -/
def maxSize : ValueKind → Nat
  | byte => 1
  | short | char => 2
  | int | float => 4
  | long | double => 8
  | methodType | methodHandle | string | type | field | method | enum => 4
  | array | nested | null | boolean => 0

end ValueKind

end StubJar.Container
