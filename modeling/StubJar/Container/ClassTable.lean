import Std.Data.HashMap
import StubJar.Container.ValueForm

/-!
# Reading classes

A row of the class table points at the parts of a class: its interfaces, a
directory of annotations, the initial values of its static fields, and a list
of members in which each index is given by its distance from the one before.
An annotation of the directory goes to the first member of its index.
-/

namespace StubJar.Container

open StubJar.Dalvik

/-- The annotations of a class, those of members by index. -/
structure Directory where
  type : List Annotation
  fields : Std.HashMap Nat (List Annotation)
  methods : Std.HashMap Nat (List Annotation)
  parameters : Std.HashMap Nat (List (List Annotation))

/-- The directory of a class without annotations. -/
def Directory.empty : Directory := ⟨[], {}, {}, {}⟩

namespace Opened

variable (c : Opened)

/-- How deep values may be nested: no deeper than there are bytes. -/
def depth : Nat := c.bytes.length + 1

/-- The set of annotations at an offset. -/
def annotationsAt (offset : Nat) : Except DecodeFault (List Annotation) :=
  c.image.listAt offset do
    let size ← Decoder.number 4
    Decoder.times size do
      let item ← Decoder.number 4
      c.image.decodeAt item (decodeAnnotationItem c.tables c.depth)

/-- The list of sets of annotations at an offset, one for each parameter. -/
def parameterAnnotationsAt (offset : Nat) : Except DecodeFault (List (List Annotation)) :=
  c.image.listAt offset do
    let size ← Decoder.number 4
    Decoder.times size do
      let set ← Decoder.number 4
      c.annotationsAt set

/-- The part of a directory for members of one kind; of two entries for an
index the later one counts. -/
def directoryPart {α : Type} (size : Nat) (at? : Nat → Except DecodeFault α) :
    Decoder (Std.HashMap Nat α) := do
  let entries ← Decoder.times size do
    let index ← Decoder.number 4
    let offset ← Decoder.number 4
    return (index, ← at? offset)
  return entries.foldl (fun found (index, a) => found.insert index a) {}

/-- The directory at an offset. -/
def directoryAt (offset : Nat) : Except DecodeFault Directory :=
  if offset = 0 then .ok .empty
  else c.image.decodeAt offset do
    let type ← Decoder.number 4
    let fields ← Decoder.number 4
    let methods ← Decoder.number 4
    let parameters ← Decoder.number 4
    let type ← c.annotationsAt type
    let fields ← directoryPart fields c.annotationsAt
    let methods ← directoryPart methods c.annotationsAt
    let parameters ← directoryPart parameters c.parameterAnnotationsAt
    return ⟨type, fields, methods, parameters⟩

/-- The code at an offset. Where its debug information stands is passed
over. -/
def bodyAt (offset : Nat) : Except DecodeFault Body :=
  c.image.decodeAt offset do
    let registers ← Decoder.number 2
    let ins ← Decoder.number 2
    let outs ← Decoder.number 2
    let tries ← Decoder.number 2
    let _ ← Decoder.number 4
    let size ← Decoder.number 4
    let units ← Decoder.times size (Decoder.number 2)
    return ⟨UInt16.ofNat registers, UInt16.ofNat ins, UInt16.ofNat outs, UInt16.ofNat tries,
      units.map UInt16.ofNat⟩

/-- The flags of an item, each bit of which must have a meaning. -/
def flagsOf {known : UInt32} (item : String) (bits : Nat) :
    Except DecodeFault (AccessFlags known) :=
  let flags : AccessFlags known := ⟨UInt32.ofNat bits⟩
  if flags.isKnown then .ok flags else .error (.unknownFlags item flags.unknownBits)

/-- The index of a member, given its distance from the one before. -/
def nextIndex (previous distance : Nat) : Except DecodeFault Nat :=
  if previous + distance < 0x100000000 then .ok (previous + distance)
  else .error (.malformed .memberIndexOverflow)

/-- What has still to be handed out while the fields of one kind are read:
the annotations of fields and the initial values. -/
structure FieldState where
  index : Nat
  annotations : Std.HashMap Nat (List Annotation)
  values : List Value

/-- A field; the next of the initial values is its own. -/
def field (s : FieldState) : Decoder (Field × FieldState) := do
  let index ← nextIndex s.index (← Decoder.uleb)
  let bits ← Decoder.uleb
  let ref ← c.tables.field index
  let flags ← flagsOf ref.render bits
  return (⟨ref, flags, s.values.head?, s.annotations.getD index []⟩,
    ⟨index, s.annotations.erase index, s.values.tail⟩)

/-- What has still to be handed out while the methods of one kind are
read. -/
structure MethodState where
  index : Nat
  annotations : Std.HashMap Nat (List Annotation)
  parameters : Std.HashMap Nat (List (List Annotation))

/-- A method. -/
def method (s : MethodState) : Decoder (Method × MethodState) := do
  let index ← nextIndex s.index (← Decoder.uleb)
  let bits ← Decoder.uleb
  let code ← Decoder.uleb
  let ref ← c.tables.method index
  let flags ← flagsOf ref.render bits
  let body ← if code = 0 then pure none else some <$> (c.bodyAt code : Except DecodeFault Body)
  return (⟨ref, flags, s.annotations.getD index [], s.parameters.getD index [], body⟩,
    ⟨index, s.annotations.erase index, s.parameters.erase index⟩)

/-- The members of a class at an offset: static fields, instance fields,
direct methods, virtual methods. -/
def membersAt (offset : Nat) (d : Directory) (values : List Value) :
    Except DecodeFault (List Field × List Method) :=
  if offset = 0 then .ok ([], [])
  else c.image.decodeAt offset do
    let statics ← Decoder.uleb
    let instances ← Decoder.uleb
    let directs ← Decoder.uleb
    let virtuals ← Decoder.uleb
    let (statics, s) ← Decoder.unfold c.field statics ⟨0, d.fields, values⟩
    let (instances, _) ← Decoder.unfold c.field instances ⟨0, s.annotations, []⟩
    let (directs, s) ← Decoder.unfold c.method directs ⟨0, d.methods, d.parameters⟩
    let (virtuals, _) ← Decoder.unfold c.method virtuals ⟨0, s.annotations, s.parameters⟩
    return (statics ++ instances, directs ++ virtuals)

/-- An index that may be missing. -/
def optionally {α : Type} (index : Nat) (find : Nat → Except DecodeFault α) :
    Except DecodeFault (Option α) :=
  if index = noIndex then .ok none else some <$> find index

/-- A row of the class table, with everything it points at. -/
def classRow : Decoder ClassDecl := do
  let type ← Decoder.number 4
  let bits ← Decoder.number 4
  let superclass ← Decoder.number 4
  let interfaces ← Decoder.number 4
  let sourceFile ← Decoder.number 4
  let annotations ← Decoder.number 4
  let members ← Decoder.number 4
  let values ← Decoder.number 4
  let type ← c.tables.type type
  let flags ← flagsOf type.text bits
  let superclass ← optionally superclass c.tables.type
  let interfaces ← typesAt c.image c.tables interfaces
  let sourceFile ← optionally sourceFile c.tables.string
  let directory ← c.directoryAt annotations
  let values ← c.image.listAt values (countedList (decodeValue c.tables c.depth))
  let (fields, methods) ← c.membersAt members directory values
  return ⟨type, flags, superclass, interfaces, sourceFile, directory.type, fields, methods⟩

/-- The contents of the container. -/
def file : Except DecodeFault File := do
  let classes ← rowsAt c.image c.bytes Header.classes c.classRow
  return ⟨c.version, classes.toList⟩

end Opened

/-- The file that a container holds. -/
def decode (bytes : List UInt8) : Except DecodeFault File := do
  (← openContainer bytes).file

end StubJar.Container
