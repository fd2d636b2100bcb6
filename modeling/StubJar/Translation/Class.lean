import StubJar.Translation.Annotation
import StubJar.Translation.Body

/-!
# Translating classes

A class becomes a class file with one pool of constants, which is filled in
the order in which the parts are translated: names, fields, methods, the
attributes of the class. Members keep their order.
-/

namespace StubJar.Translation

open StubJar.Dalvik StubJar.ClassFile

/-- A class file, and the name of its class. -/
structure ClassEntry where
  name : String
  bytes : List UInt8
deriving DecidableEq, Repr

/-- The path of a class in an archive. -/
def ClassEntry.path (e : ClassEntry) : String := e.name ++ ".class"

/-- The name of a class that another class builds on; an array keeps its
whole descriptor. -/
def parentName (d : Descriptor) : Translator String :=
  match d.className? with
  | some name => return name
  | none => if d.isArray then return d.text else throw (.notAClass d.text)

/-- The slot of a class that another class builds on. -/
def parentSlot (d : Descriptor) : Translator Nat := do
  let name ← parentName d
  PoolM.classRef name

/-- The constant for the initial value of a field, where the value is of the
kind that the type of the field asks for. -/
def fieldConstant? (type : Descriptor) (v : Value) : Option (PoolM ClassFile.Fault Nat) :=
  match type.text, v with
  | "I", .int v => some (PoolM.integer v.toInt)
  | "S", .short v => some (PoolM.integer v.toInt)
  | "C", .char u => some (PoolM.integer u.toNat)
  | "B", .byte v => some (PoolM.integer v.toInt)
  | "Z", .boolean b => some (PoolM.integer b.toNat)
  | "J", .long v => some (PoolM.slot (.long v))
  | "F", .float bits => some (PoolM.slot (.float bits))
  | "D", .double bits => some (PoolM.slot (.double bits))
  | "Ljava/lang/String;", .string s => some (PoolM.stringRef s)
  | _, _ => none

/-- The attribute for the initial value of a field, which only a static and
final field has. -/
def constantAttributes (f : Field) : PoolM ClassFile.Fault (List Attribute) :=
  let initial := if f.isStatic && f.isFinal then f.initial else none
  match initial.bind (fieldConstant? f.ref.type) with
  | none => return []
  | some constant => do return [← Attribute.of (.constantValue (← constant))]

/-- The form of a field. -/
def fieldForm (f : Field) : PoolM ClassFile.Fault Member := do
  let name ← PoolM.utf8 f.ref.name
  let descriptor ← PoolM.utf8 f.ref.type.text
  let constant ← constantAttributes f
  return ⟨flagsOfField f.flags, name, descriptor, constant ++ (← commonAttributes f.annotations)⟩

/-- The attribute for the code of a method. -/
def codeAttributes (m : Method) : Translator (List Attribute) :=
  if m.flags.isBodiless then return []
  else do
    let code ← codeOf m
    return [← Attribute.of (.code code)]

/-- The attribute for the exceptions that a method throws. -/
def exceptionAttributes (m : Method) : PoolM ClassFile.Fault (List Attribute) := do
  let names := thrown m.annotations
  if names.isEmpty then return []
  else return [← Attribute.of (.exceptions (← names.mapM PoolM.classRef))]

/-- The form of a method. -/
def methodForm (m : Method) : Translator Member := do
  let name ← PoolM.utf8 m.ref.name
  let descriptor ← PoolM.utf8 m.ref.prototype.render
  let code ← codeAttributes m
  let exceptions ← exceptionAttributes m
  let common ← commonAttributes m.annotations
  let parameters ← parameterAttributes m.parameterAnnotations
  return ⟨flagsOfMethod m.flags, name, descriptor, code ++ exceptions ++ common ++ parameters⟩

/-- The attribute for the source file of a class. -/
def sourceAttributes (c : ClassDecl) : PoolM ClassFile.Fault (List Attribute) :=
  match c.sourceFile with
  | none => return []
  | some file => do return [← Attribute.of (.sourceFile (← PoolM.utf8 file))]

/-- The parts of a class file. -/
def partsOf (name : String) (c : ClassDecl) : Translator Parts := do
  let thisClass ← PoolM.classRef name
  let superClass ← c.superclass.mapM parentSlot
  let interfaces ← c.interfaces.mapM parentSlot
  let fields ← c.fields.mapM fun f => (fieldForm f : Translator Member)
  let methods ← c.methods.mapM methodForm
  let source ← sourceAttributes c
  let common ← commonAttributes c.annotations
  return ⟨flagsOfClass c.flags, thisClass, superClass, interfaces, fields, methods,
    source ++ common⟩

/-- The class file of a class. -/
def classEntry (version : Version) (c : ClassDecl) : Except Fault ClassEntry :=
  match c.type.className? with
  | none => .error (.notAClass c.type.text)
  | some name =>
    match partsOf name c ConstantPool.empty with
    | (.ok parts, pool) => .ok ⟨name, ClassFile.encode version pool parts⟩
    | (.error fault, _) => .error fault

end StubJar.Translation
