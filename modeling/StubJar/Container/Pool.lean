import StubJar.Container.Fault
import StubJar.Container.Mention
import StubJar.Order.Table
import StubJar.Text.Utf16

/-!
# The tables of a file to be written

One table for each kind of thing that is referred to by index. Strings are
ordered by their UTF-16 units and everything else by the indices that its row
holds, so each table is built on those before it.
-/

namespace StubJar.Container

open StubJar.Dalvik StubJar.Order

/-- The tables, and whether the version of the format must have method
handles. -/
structure Pool where
  strings : Table String
  types : Table Descriptor
  prototypes : Table Prototype
  fields : Table FieldRef
  methods : Table MethodRef
  handles : Table MethodHandle
  needsHandles : Bool

namespace Pool

/-- The index of a string. -/
def string (p : Pool) (s : String) : Nat := p.strings.indexOf s

/-- The index of a type. -/
def type (p : Pool) (d : Descriptor) : Nat := p.types.indexOf d

/-- The index of a prototype. -/
def prototype (p : Pool) (q : Prototype) : Nat := p.prototypes.indexOf q

/-- The index of a field. -/
def field (p : Pool) (f : FieldRef) : Nat := p.fields.indexOf f

/-- The index of a method. -/
def method (p : Pool) (m : MethodRef) : Nat := p.methods.indexOf m

/-- The index of a method handle. -/
def handle (p : Pool) (h : MethodHandle) : Nat := p.handles.indexOf h

/-- The position of the member of a handle in the table of its kind. -/
def member (p : Pool) : HandleMember → Nat
  | .field f => p.field f
  | .method m => p.method m

/-- The tables of what is mentioned. Two method handles can have the same row, where a kind
does not go with its member: these keep the order in which they are mentioned, which the
format leaves open. -/
def ofMentions (mentions : List Mention) : Pool :=
  let strings := Table.ofItems Text.units (mentions.flatMap Mention.strings)
  let types := Table.ofItems (fun d => [strings.indexOf d.text]) (mentions.flatMap Mention.types)
  let prototypes := Table.ofItems
    (fun q => types.indexOf q.result :: q.parameters.map types.indexOf)
    (mentions.flatMap Mention.prototypes)
  let fields := Table.ofItems
    (fun f => [types.indexOf f.owner, strings.indexOf f.name, types.indexOf f.type])
    (mentions.flatMap Mention.fields)
  let methods := Table.ofItems
    (fun m => [types.indexOf m.owner, strings.indexOf m.name, prototypes.indexOf m.prototype])
    (mentions.flatMap Mention.methods)
  let member : HandleMember → Nat
    | .field f => fields.indexOf f
    | .method m => methods.indexOf m
  let handles := Table.ofItems (fun h => [h.kind.code, member h.member])
    (mentions.flatMap Mention.handles)
  ⟨strings, types, prototypes, fields, methods, handles, mentions.any Mention.needsHandles⟩

/-- Refuses a table with more than `limit` items. -/
def checkSize (table : TableName) (limit count : Nat) : Except EncodeFault Unit :=
  if limit < count then .error (.tooManyItems table count) else .ok ()

/-- Refuses tables with more items than the indices into them have room
for. Only method handles narrow the indices of members. -/
def checkSizes (p : Pool) : Except EncodeFault Unit := do
  checkSize .types 0xFFFF p.types.size
  checkSize .prototypes 0xFFFF p.prototypes.size
  if p.handles.size ≠ 0 then
    checkSize .fields 0x10000 p.fields.size
    checkSize .methods 0x10000 p.methods.size

/-- The tables of a file. Every prototype must have letters, and every table
must fit the indices into it. -/
def ofFile (f : File) : Except EncodeFault Pool := do
  let mentions := f.classes.flatMap ClassDecl.mentions
  match (mentions.flatMap Mention.prototypes).find? (·.shorty?.isNone) with
  | some p => throw (.malformedDescriptor p.render)
  | none =>
    let pool := ofMentions mentions
    pool.checkSizes
    return pool

end Pool

end StubJar.Container
