import StubJar.ClassFile.Attribute
import StubJar.Dalvik.Value

/-!
# Translating annotations

Annotations for tools become invisible ones and annotations for the program
visible ones. Of the annotations for the virtual machine two have a place in
a class file, as attributes of their own: the generic signature, which comes
in pieces, and the list of exceptions that a method throws.

Some values have no form in a class file. An element with such a value is
left out, and so is such an item of an array.
-/

namespace StubJar.Translation

open StubJar.Dalvik StubJar.ClassFile

/-! ## Annotations for the virtual machine -/

/-- The type of the annotation that holds a generic signature. -/
def signatureType : Descriptor := ⟨"Ldalvik/annotation/Signature;"⟩

/-- The type of the annotation that lists exceptions. -/
def throwsType : Descriptor := ⟨"Ldalvik/annotation/Throws;"⟩

/-- The items of the element `value`, if that is an array. -/
def valueItems? (a : Dalvik.Annotation) : Option (List Value) :=
  match a.element? "value" with
  | some (.array items) => some items
  | _ => none

/-- The items of the annotations of a type that are for the virtual
machine. -/
def systemItems (type : Descriptor) (annotations : List Dalvik.Annotation) : List (List Value) :=
  (annotations.filter fun a => a.visibility == .system && a.type == type).filterMap valueItems?

/-- The text of a value that is a string. -/
def stringOf? : Value → Option String
  | .string s => some s
  | _ => none

/-- The name of a value that is a type: that of its class, or its whole text
where it names none. -/
def thrownOf? : Value → Option String
  | .type d => some (d.className?.getD d.text)
  | _ => none

/-- The generic signature; the last one counts. -/
def signature? (annotations : List Dalvik.Annotation) : Option String :=
  (systemItems signatureType annotations).getLast?.map fun items =>
    String.join (items.filterMap stringOf?)

/-- The names of the exceptions. -/
def thrown (annotations : List Dalvik.Annotation) : List String :=
  (systemItems throwsType annotations).flatten.filterMap thrownOf?

/-! ## Annotations for tools and for the program -/

mutual

/-- The form of a value in a class file, if it has one. -/
def elementForm : Value → PoolM Fault (Option ElementValue)
  | .byte v => do return some (.constant 0x42 (← PoolM.integer v.toInt))
  | .short v => do return some (.constant 0x53 (← PoolM.integer v.toInt))
  | .char u => do return some (.constant 0x43 (← PoolM.integer u.toNat))
  | .int v => do return some (.constant 0x49 (← PoolM.integer v.toInt))
  | .boolean b => do return some (.constant 0x5A (← PoolM.integer b.toNat))
  | .long v => do return some (.constant 0x4A (← PoolM.slot (.long v)))
  | .float bits => do return some (.constant 0x46 (← PoolM.slot (.float bits)))
  | .double bits => do return some (.constant 0x44 (← PoolM.slot (.double bits)))
  | .string s => do return some (.constant 0x73 (← PoolM.utf8 s))
  | .type d => do return some (.classInfo (← PoolM.utf8 d.text))
  | .enum f => do return some (.enum (← PoolM.utf8 f.type.text) (← PoolM.utf8 f.name))
  | .array items => do return some (.array (← itemForms items))
  | .nested type elements => do
    return some (.nested (← PoolM.utf8 type.text) (← elementForms elements))
  | .null | .methodType _ | .methodHandle _ | .field _ | .method _ => return none

/-- The forms of those values that have one. -/
def itemForms : List Value → PoolM Fault (List ElementValue)
  | [] => return []
  | v :: vs => do
    let form ← elementForm v
    return form.toList ++ (← itemForms vs)

/-- The forms of those elements whose values have one. -/
def elementForms : List (String × Value) → PoolM Fault (List (Nat × ElementValue))
  | [] => return []
  | (name, v) :: elements => do
    match ← elementForm v with
    | none => elementForms elements
    | some form =>
      let name ← PoolM.utf8 name
      return (name, form) :: (← elementForms elements)

end

/-- The form of an annotation. -/
def annotationForm (a : Dalvik.Annotation) : PoolM Fault ClassFile.Annotation := do
  return ⟨← PoolM.utf8 a.type.text, ← elementForms a.elements⟩

/-- Whether an annotation is visible in a class file; one for the virtual
machine is neither visible nor invisible. -/
def visible? (a : Dalvik.Annotation) : Option Bool :=
  match a.visibility with
  | .runtime => some true
  | .build => some false
  | .system => none

/-- Annotations, the visible ones and the invisible ones. -/
structure Split where
  visible : List ClassFile.Annotation
  invisible : List ClassFile.Annotation

/-- The forms of annotations, each paired with whether it is visible. -/
def markedForm (a : Dalvik.Annotation) : PoolM Fault (Option (Bool × ClassFile.Annotation)) :=
  match visible? a with
  | none => return none
  | some visible => return some (visible, ← annotationForm a)

/-- The forms of annotations, in order. -/
def split (annotations : List Dalvik.Annotation) : PoolM Fault Split := do
  let marked := (← annotations.mapM markedForm).filterMap id
  return ⟨(marked.filter (·.1)).map Prod.snd, (marked.filter (!·.1)).map Prod.snd⟩

/-- An attribute with some content, if there is anything to say. -/
def attributeIf (isNeeded : Bool) (content : Content) : PoolM Fault (List Attribute) :=
  if isNeeded then return [← Attribute.of content] else return []

/-- The attributes for the annotations of a class or a member. -/
def annotationAttributes (annotations : List Dalvik.Annotation) : PoolM Fault (List Attribute) := do
  let s ← split annotations
  let visible ← attributeIf (!s.visible.isEmpty) (.annotations true s.visible)
  let invisible ← attributeIf (!s.invisible.isEmpty) (.annotations false s.invisible)
  return visible ++ invisible

/-- The attributes for the annotations of parameters. Every parameter has its
place in each of them, annotated or not. -/
def parameterAttributes (parameters : List (List Dalvik.Annotation)) :
    PoolM Fault (List Attribute) := do
  let splits ← parameters.mapM split
  let visible := splits.map Split.visible
  let invisible := splits.map Split.invisible
  let first ← attributeIf (visible.any (!·.isEmpty)) (.parameterAnnotations true visible)
  let second ← attributeIf (invisible.any (!·.isEmpty)) (.parameterAnnotations false invisible)
  return first ++ second

/-- The attribute for the generic signature. -/
def signatureAttributes (annotations : List Dalvik.Annotation) : PoolM Fault (List Attribute) :=
  match signature? annotations with
  | none => return []
  | some signature => do return [← Attribute.of (.signature (← PoolM.utf8 signature))]

/-- The attributes that a class and its members have in common. -/
def commonAttributes (annotations : List Dalvik.Annotation) : PoolM Fault (List Attribute) := do
  return (← signatureAttributes annotations) ++ (← annotationAttributes annotations)

end StubJar.Translation
