import StubJar.Dalvik.File

/-!
# Agreement of classes

Two values agree when a program could not tell them apart by comparing them.
Floating-point values compare as numbers: a NaN agrees with nothing, itself
included, and the two zeros agree. Everything else agrees with its equals,
and a class agrees with another part by part.
-/

namespace StubJar.Dalvik

/-- The bits of a 32-bit floating-point value without its sign. -/
def magnitude32 (bits : UInt32) : UInt32 := bits &&& 0x7FFFFFFF

/-- The bits of a 64-bit floating-point value without its sign. -/
def magnitude64 (bits : UInt64) : UInt64 := bits &&& 0x7FFFFFFFFFFFFFFF

/-- Whether two 32-bit floating-point values are equal numbers. -/
def floatAgrees (a b : UInt32) : Bool :=
  magnitude32 a ≤ 0x7F800000 && (a == b || (magnitude32 a == 0 && magnitude32 b == 0))

/-- Whether two 64-bit floating-point values are equal numbers. -/
def doubleAgrees (a b : UInt64) : Bool :=
  magnitude64 a ≤ 0x7FF0000000000000 && (a == b || (magnitude64 a == 0 && magnitude64 b == 0))

/-- Whether two lists agree item by item. -/
def agreeBy {α : Type} (agrees : α → α → Bool) : List α → List α → Bool
  | [], [] => true
  | a :: as, b :: bs => agrees a b && agreeBy agrees as bs
  | _, _ => false

/-- Whether two optional items are both missing, or agree. -/
def agreeIfAny {α : Type} (agrees : α → α → Bool) : Option α → Option α → Bool
  | none, none => true
  | some a, some b => agrees a b
  | _, _ => false

mutual

/-- Whether two values are of one kind and agree. -/
def Value.agrees : Value → Value → Bool
  | .byte v, .byte w => v == w
  | .short v, .short w => v == w
  | .char u, .char v => u == v
  | .int v, .int w => v == w
  | .long v, .long w => v == w
  | .float a, .float b => floatAgrees a b
  | .double a, .double b => doubleAgrees a b
  | .methodType p, .methodType q => p == q
  | .methodHandle h, .methodHandle k => h == k
  | .string s, .string t => s == t
  | .type d, .type e => d == e
  | .field f, .field g => f == g
  | .method m, .method n => m == n
  | .enum f, .enum g => f == g
  | .array xs, .array ys => Value.agreeAll xs ys
  | .nested d xs, .nested e ys => d == e && Value.agreeElements xs ys
  | .null, .null => true
  | .boolean b, .boolean c => b == c
  | _, _ => false

/-- Whether two lists of values agree item by item. -/
def Value.agreeAll : List Value → List Value → Bool
  | [], [] => true
  | v :: vs, w :: ws => v.agrees w && Value.agreeAll vs ws
  | _, _ => false

/-- Whether two lists of elements have the same names and agreeing values. -/
def Value.agreeElements : List (String × Value) → List (String × Value) → Bool
  | [], [] => true
  | (s, v) :: xs, (t, w) :: ys => s == t && v.agrees w && Value.agreeElements xs ys
  | _, _ => false

end

/-- Whether two annotations agree. -/
def Annotation.agrees (a b : Annotation) : Bool :=
  a.visibility == b.visibility && a.type == b.type && Value.agreeElements a.elements b.elements

/-- Whether two fields agree. -/
def Field.agrees (f g : Field) : Bool :=
  f.ref == g.ref && f.flags == g.flags && agreeIfAny Value.agrees f.initial g.initial
    && agreeBy Annotation.agrees f.annotations g.annotations

/-- Whether two methods agree. -/
def Method.agrees (m n : Method) : Bool :=
  m.ref == n.ref && m.flags == n.flags && agreeBy Annotation.agrees m.annotations n.annotations
    && agreeBy (agreeBy Annotation.agrees) m.parameterAnnotations n.parameterAnnotations
    && m.body == n.body

/-- Whether two classes agree. -/
def ClassDecl.agrees (c d : ClassDecl) : Bool :=
  c.type == d.type && c.flags == d.flags && c.superclass == d.superclass
    && c.interfaces == d.interfaces && c.sourceFile == d.sourceFile
    && agreeBy Annotation.agrees c.annotations d.annotations
    && agreeBy Field.agrees c.fields d.fields && agreeBy Method.agrees c.methods d.methods

/-- Whether two files agree. -/
def File.agrees (f g : File) : Bool :=
  f.version == g.version && agreeBy ClassDecl.agrees f.classes g.classes

end StubJar.Dalvik
