import StubJar.Dalvik.File

/-!
# What a class mentions

Writing a class needs a position in a table for everything that the class
refers to. `ClassDecl.mentions` lists these things in the order in which the
class names them; each brings with it the things that its own row refers to.
-/

namespace StubJar.Dalvik

/-- Something that has a row in a table. -/
inductive Mention where
  | string (s : String)
  | type (d : Descriptor)
  /-- A prototype that is itself a value. -/
  | prototype (p : Prototype)
  | field (f : FieldRef)
  | method (m : MethodRef)
  | handle (h : MethodHandle)

namespace HandleMember

/-- The field, where the member is one. -/
def fields : HandleMember → List FieldRef
  | field f => [f]
  | method _ => []

/-- The method, where the member is one. -/
def methods : HandleMember → List MethodRef
  | field _ => []
  | method m => [m]

end HandleMember

namespace Mention

/-- The handles among the things mentioned. -/
def handles : Mention → List MethodHandle
  | handle h => [h]
  | _ => []

/-- The fields that come with a mention. -/
def fields : Mention → List FieldRef
  | field f => [f]
  | handle h => h.member.fields
  | _ => []

/-- The methods that come with a mention. -/
def methods : Mention → List MethodRef
  | method m => [m]
  | handle h => h.member.methods
  | _ => []

/-- The prototypes that come with a mention. -/
def prototypes (m : Mention) : List Prototype :=
  match m with
  | prototype p => [p]
  | _ => m.methods.map MethodRef.prototype

/-- The types that come with a mention. -/
def types (m : Mention) : List Descriptor :=
  match m with
  | type d => [d]
  | _ =>
    m.fields.flatMap (fun f => [f.owner, f.type]) ++ m.methods.map MethodRef.owner
      ++ m.prototypes.flatMap fun p => p.result :: p.parameters

/-- The strings that come with a mention: the names of members, the texts of
types, the letters of prototypes. -/
def strings (m : Mention) : List String :=
  match m with
  | string s => [s]
  | _ =>
    m.fields.map FieldRef.name ++ m.methods.map MethodRef.name
      ++ m.types.map Descriptor.text ++ m.prototypes.filterMap Prototype.shorty?

/-- Whether the mention needs the version of the format that has method
handles. -/
def needsHandles : Mention → Bool
  | prototype _ | handle _ => true
  | _ => false

end Mention

mutual

/-- What a value mentions. -/
def Value.mentions : Value → List Mention
  | .methodType p => [.prototype p]
  | .methodHandle h => [.handle h]
  | .string s => [.string s]
  | .type d => [.type d]
  | .field f | .enum f => [.field f]
  | .method m => [.method m]
  | .array items => Value.allMentions items
  | .nested d elements => .type d :: Value.elementMentions elements
  | .byte _ | .short _ | .char _ | .int _ | .long _ | .float _ | .double _ | .null | .boolean _ =>
    []

/-- What a list of values mentions. -/
def Value.allMentions : List Value → List Mention
  | [] => []
  | v :: vs => v.mentions ++ Value.allMentions vs

/-- What a list of elements mentions. -/
def Value.elementMentions : List (String × Value) → List Mention
  | [] => []
  | (name, v) :: elements => .string name :: (v.mentions ++ Value.elementMentions elements)

end

/-- What an annotation mentions. -/
def Annotation.mentions (a : Annotation) : List Mention :=
  .type a.type :: Value.elementMentions a.elements

/-- What a field mentions. -/
def Field.mentions (f : Field) : List Mention :=
  .field f.ref :: ((f.initial.elim [] Value.mentions) ++ f.annotations.flatMap Annotation.mentions)

/-- What a method mentions; its code mentions nothing. -/
def Method.mentions (m : Method) : List Mention :=
  .method m.ref :: (m.annotations.flatMap Annotation.mentions
    ++ m.parameterAnnotations.flatten.flatMap Annotation.mentions)

/-- What a class mentions. -/
def ClassDecl.mentions (c : ClassDecl) : List Mention :=
  (c.type :: c.parents).map .type ++ c.sourceFile.toList.map .string
    ++ c.annotations.flatMap Annotation.mentions
    ++ c.fields.flatMap Field.mentions ++ c.methods.flatMap Method.mentions

end StubJar.Dalvik
