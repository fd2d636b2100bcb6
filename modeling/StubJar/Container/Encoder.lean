import StubJar.Container.ClassLayout
import StubJar.Container.Hierarchy
import StubJar.Digest.Adler32
import StubJar.Digest.Sha1

/-!
# Writing a container

The tables are sorted first, since every index depends on them. The items
that the tables point at are placed run by run, each run behind the one
before, and the rows are written when all offsets are known. Classes keep the
order of the file in every run; only their rows are ordered by hierarchy.
-/

namespace StubJar.Container

open StubJar.Bytes StubJar.Dalvik StubJar.Digest StubJar.Order

/-- The list of types under its indices: their number, then each in two
bytes. -/
def encodeTypeList (indices : List Nat) : List UInt8 :=
  le 4 indices.length ++ indices.flatMap (le 2)

/-- The lists of types that a file needs, as indices, each of them once: the
parameters of prototypes, then the interfaces of classes. The empty list is
not written. -/
def typeLists (p : Pool) (classes : List ClassDecl) : List (List Nat) :=
  distinct (((p.prototypes.items.map Prototype.parameters ++ classes.map ClassDecl.interfaces).map
    (·.map p.type)).filter (!·.isEmpty))

/-- The sizes of the tables, in the order in which they stand. -/
def tableSizes (p : Pool) (classes : Nat) : List (ItemKind × Nat) :=
  [(.stringId, p.strings.size), (.typeId, p.types.size), (.protoId, p.prototypes.size),
    (.fieldId, p.fields.size), (.methodId, p.methods.size), (.classDef, classes),
    (.methodHandle, p.handles.size)]

/-- How many bytes the tables take. -/
def tablesSize : List (ItemKind × Nat) → Nat
  | [] => 0
  | (kind, size) :: tables => size * kind.rowSize + tablesSize tables

/-- Where each table starts, the first of them at `start`. -/
def tableEntries (start : Nat) : List (ItemKind × Nat) → List MapEntry
  | [] => []
  | (kind, size) :: tables =>
    ⟨kind, size, start⟩ :: tableEntries (start + size * kind.rowSize) tables

/-- Where all that the tables point at is placed. -/
structure Layout where
  tables : List MapEntry
  dataStart : Nat
  typeLists : Run
  /-- The offset of each list of types under its indices. -/
  typeListOffsets : Std.HashMap (List Nat) Nat
  arrays : Run
  arrayOffsets : Array Nat
  annotations : AnnotationLayout
  code : Run
  classData : Run
  classDataOffsets : Array Nat
  strings : Run

namespace Layout

/-- Places the items of a file. -/
def ofClasses (p : Pool) (classes : List ClassDecl) (placed : List Placed)
    (bodies : List (Nat × Method × Body)) : Layout :=
  let sizes := tableSizes p classes.length
  let dataStart := headerSize + tablesSize sizes
  let lists := Container.typeLists p classes
  let typeLists := Run.ofItems .typeList dataStart (lists.map encodeTypeList)
  let typeListOffsets := Std.HashMap.ofList (lists.zip typeLists.offsets.toList)
  let (arrays, arrayOffsets) := Run.ofOptional .encodedArray typeLists.stop
    (placed.map fun c =>
      let values := c.members.initialValues
      if values.isEmpty then none else some (encodeArray p values))
  let annotations := AnnotationLayout.ofClasses p arrays.stop placed
  let code := Run.ofItems .code annotations.directories.stop
    (bodies.map fun (_, _, b) => encodeBody b)
  let codeOffsets := Std.HashMap.ofList ((bodies.map Prod.fst).zip code.offsets.toList)
  let (classData, classDataOffsets) := Run.ofOptional .classData code.stop
    (placed.map fun c => encodeClassData? codeOffsets c.members)
  let strings := Run.ofItems .stringData classData.stop (p.strings.items.map encodeString)
  ⟨tableEntries headerSize sizes, dataStart, typeLists, typeListOffsets, arrays, arrayOffsets,
    annotations, code, classData, classDataOffsets, strings⟩

/-- The runs in the order in which they stand. -/
def runs (l : Layout) : List Run :=
  [l.typeLists, l.arrays] ++ l.annotations.runs ++ [l.code, l.classData, l.strings]

/-- The offset of the map. -/
def mapOffset (l : Layout) : Nat := l.strings.stop + padding 4 l.strings.stop

/-- The entries of the map: every kind of item that occurs, in the order of
the offsets. -/
def map (l : Layout) : List MapEntry :=
  let occurring := (l.tables ++ l.runs.map Run.mapEntry).filter (0 < ·.size)
  ⟨.header, 1, 0⟩ :: occurring ++ [⟨.mapList, 1, l.mapOffset⟩]

/-- All that stands behind the tables. -/
def data (l : Layout) : List UInt8 :=
  l.runs.flatMap (·.bytes.toList) ++ List.replicate (padding 4 l.strings.stop) 0
    ++ encodeMap l.map

/-- The offset of a list of types; zero stands for the empty one. -/
def typeListOffset (l : Layout) (p : Pool) (types : List Descriptor) : Nat :=
  if types.isEmpty then 0 else l.typeListOffsets.getD (types.map p.type) 0

/-- The row of a prototype. -/
def prototypeRow (l : Layout) (p : Pool) (q : Prototype) : List UInt8 :=
  le 4 (p.string (q.shorty?.getD "")) ++ le 4 (p.type q.result)
    ++ le 4 (l.typeListOffset p q.parameters)

/-- The row of a class. -/
def classRow (l : Layout) (p : Pool) (position : Nat) (c : ClassDecl) : List UInt8 :=
  le 4 (p.type c.type) ++ le 4 c.flags.bits.toNat ++ le 4 (c.superclass.elim noIndex p.type)
    ++ le 4 (l.typeListOffset p c.interfaces) ++ le 4 (c.sourceFile.elim noIndex p.string)
    ++ le 4 (l.annotations.directoryOffsets.getD position 0)
    ++ le 4 (l.classDataOffsets.getD position 0) ++ le 4 (l.arrayOffsets.getD position 0)

end Layout

/-- The row of a field. -/
def encodeFieldRow (p : Pool) (f : FieldRef) : List UInt8 :=
  le 2 (p.type f.owner) ++ le 2 (p.type f.type) ++ le 4 (p.string f.name)

/-- The row of a method. -/
def encodeMethodRow (p : Pool) (m : MethodRef) : List UInt8 :=
  le 2 (p.type m.owner) ++ le 2 (p.prototype m.prototype) ++ le 4 (p.string m.name)

/-- The row of a method handle. -/
def encodeHandleRow (p : Pool) (h : MethodHandle) : List UInt8 :=
  le 2 h.kind.code ++ le 2 0 ++ le 2 (p.member h.member) ++ le 2 0

/-- The rows of all tables. -/
def encodeTables (p : Pool) (l : Layout) (classes : Array ClassDecl) (order : List Nat) :
    List UInt8 :=
  l.strings.offsets.toList.flatMap (le 4)
    ++ p.types.items.flatMap (fun d => le 4 (p.string d.text))
    ++ p.prototypes.items.flatMap (l.prototypeRow p)
    ++ p.fields.items.flatMap (encodeFieldRow p)
    ++ p.methods.items.flatMap (encodeMethodRow p)
    ++ order.flatMap (fun i => classes[i]?.elim [] (l.classRow p i))
    ++ p.handles.items.flatMap (encodeHandleRow p)

/-- Size and offset of a section; an empty one has offset zero. -/
def encodeSection (e : MapEntry) : List UInt8 :=
  le 4 e.size ++ le 4 (if 0 < e.size then e.offset else 0)

/-- The header from the size of the file on, where that is `size`. -/
def encodeSizes (l : Layout) (size : Nat) : List UInt8 :=
  le 4 size ++ le 4 headerSize ++ le 4 endianTag ++ le 4 0 ++ le 4 0 ++ le 4 l.mapOffset
    ++ (l.tables.take 6).flatMap encodeSection ++ le 4 (size - l.dataStart) ++ le 4 l.dataStart

/-- Puts magic, version, checksum and signature in front of the rest of a
container. The signature covers the rest, the checksum both. -/
def stamp (version : Nat) (rest : List UInt8) : List UInt8 :=
  let signature := Sha1.digest rest
  magic ++ Text.utf8 (File.renderVersion version) ++ [0]
    ++ le 4 (adler32 (signature ++ rest)) ++ signature ++ rest

/-- The version of the format in which a file is written. -/
def writtenVersion (p : Pool) (f : File) : Nat :=
  if p.needsHandles then max f.version File.handleVersion else f.version

/-- The classes of a file at their positions, with their members in order. -/
def placeClasses (p : Pool) (classes : List ClassDecl) : List Placed :=
  classes.zipIdx.map fun (c, i) => ⟨i, c, Members.ofClass p c⟩

/-- The container of a file. -/
def encode (f : File) : Except EncodeFault (List UInt8) := do
  let p ← Pool.ofFile f
  let order ← Hierarchy.order f.classes
  let placed := placeClasses p f.classes
  let bodies := bodies placed
  checkBodies bodies
  let l := Layout.ofClasses p f.classes placed bodies
  let data := l.data
  let size := l.dataStart + data.length
  return stamp (writtenVersion p f)
    (encodeSizes l size ++ encodeTables p l f.classes.toArray order ++ data)

end StubJar.Container
