import StubJar.Proofs.ClassFile.Grammar

/-!
# Class files with their attributes taken apart

The reader of this module reads a class file to its end and reads over nothing: it
takes every attribute apart and looks up every slot, of the constants themselves, of
attributes, of values nested in annotations and of instructions, as the kind of entry
that the grammar asks for at that place (`read`). A slot of any other kind, or the
second slot of a wide constant, is no class file.

`Tells p d bytes a` is what a writer promises of bytes that it makes while the pool is
still growing: from the pool `p` on, whatever else is put into it, the reader `d` reads
the bytes as `a`. Such promises compose like the readers do.
-/

namespace StubJar.ClassFile.Resolved

open StubJar.Bytes StubJar.ClassFile.ConstantPool
open StubJar.ClassFile.Grammar (Reader Spells text? className? readSlot readConstants
  readSuperclass whole? text?_eq className?_eq)

/-! ## What is read -/

/-- A constant that a program can load; a string is its text. -/
inductive Literal where
  | int (v : Int32)
  | float (bits : UInt32)
  | long (v : Int64)
  | double (bits : UInt64)
  | string (s : String)
deriving DecidableEq, Repr

/-- The value of an element of an annotation. -/
inductive ElementValue where
  /-- A primitive or a text, with the letter that says which. -/
  | constant (tag : Nat) (value : Literal)
  | enum (type name : String)
  | classInfo (descriptor : String)
  | nested (type : String) (elements : List (String × ElementValue))
  | array (items : List ElementValue)

/-- An annotation. -/
structure Annotation where
  type : String
  elements : List (String × ElementValue)

/-- An instruction; one that loads a constant of the pool has the constant in place of
its slot. -/
inductive Instruction where
  | plain (opcode : Nat) (operand : List UInt8)
  | load (opcode : Nat) (value : Literal)
deriving DecidableEq, Repr

/-- A range of code, where exceptions that are thrown there are handled, and the class
of those that are; all are without one. -/
structure Handler where
  start : Nat
  stop : Nat
  target : Nat
  catches : Option String
deriving DecidableEq, Repr

/-- The code of a method. Its own attributes are names and bytes. -/
structure Code where
  maxStack : Nat
  maxLocals : Nat
  instructions : List Instruction
  handlers : List Handler
  attributes : List Grammar.Attribute
deriving DecidableEq, Repr

/-- An attribute. -/
inductive Attribute where
  | constantValue (value : Literal)
  | code (c : Code)
  | sourceFile (name : String)
  | signature (text : String)
  | exceptions (classes : List String)
  | annotations (visible : Bool) (annotations : List Annotation)
  | parameterAnnotations (visible : Bool) (parameters : List (List Annotation))
  | other (name : String) (info : List UInt8)

/-- A field or a method. -/
structure Member where
  flags : Nat
  name : String
  descriptor : String
  attributes : List Attribute

/-- A class. -/
structure Class where
  minor : Nat
  major : Nat
  flags : Nat
  name : String
  superclass : Option String
  interfaces : List String
  fields : List Member
  methods : List Member
  attributes : List Attribute

/-! ## Looking up slots -/

/-- Whether what a constant refers to is a text. -/
def refersToText (cs : List Constant) : Constant → Bool
  | .classRef n | .stringRef n => (text? cs n).isSome
  | _ => true

/-- The constant to load at a slot. -/
def literal? (cs : List Constant) (n : Nat) : Option Literal :=
  match constantAt 1 cs n with
  | some (.integer v) => some (.int v)
  | some (.float bits) => some (.float bits)
  | some (.long v) => some (.long v)
  | some (.double bits) => some (.double bits)
  | some (.stringRef text) => (text? cs text).map .string
  | _ => none

/-- Whether a constant takes two slots of the operand stack. -/
def Literal.isWide : Literal → Bool
  | long _ | double _ => true
  | _ => false

/-- Whether a constant is of the kind that the letter of an element asks for. -/
def Literal.hasTag (tag : Nat) : Literal → Bool
  | int _ => tag ∈ [0x42, 0x43, 0x49, 0x53, 0x5A]
  | double _ => tag = 0x44
  | float _ => tag = 0x46
  | long _ => tag = 0x4A
  | string _ => false

/-- The constant of an element with a letter; the text of an element is one of the pool
itself. -/
def elementLiteral? (cs : List Constant) (tag n : Nat) : Option Literal :=
  if tag = 0x73 then (text? cs n).map .string else (literal? cs n).filter (·.hasTag tag)

/-! ## Reading -/

/-- Reads an element: its name, then its value. -/
def readNamed (cs : List Constant) (d : Reader ElementValue) : Reader (String × ElementValue) := do
  let name ← readSlot (text? cs)
  return (name, ← d)

/-- Reads what stands behind the letter of a value; `d` reads the values in it. -/
def readTagged (cs : List Constant) (d : Reader ElementValue) : Nat → Reader ElementValue
  | 0x65 => do
    let type ← readSlot (text? cs)
    return .enum type (← readSlot (text? cs))
  | 0x63 => do return .classInfo (← readSlot (text? cs))
  | 0x40 => do
    let type ← readSlot (text? cs)
    return .nested type (← Reader.counted 2 (readNamed cs d))
  | 0x5B => do return .array (← Reader.counted 2 d)
  | tag => do return .constant tag (← readSlot (elementLiteral? cs tag))

/-- Reads a value in which no more than `depth` values are nested. -/
def readElement (cs : List Constant) : Nat → Reader ElementValue
  | 0 => failure
  | depth + 1 => do readTagged cs (readElement cs depth) (← Reader.number 1)

/-- Reads an annotation. -/
def readAnnotationForm (cs : List Constant) (depth : Nat) : Reader Annotation := do
  let type ← readSlot (text? cs)
  return ⟨type, ← Reader.counted 2 (readNamed cs (readElement cs depth))⟩

/-- Reads what stands behind an opcode: of those that push a constant or return. -/
def readOperand (cs : List Constant) (opcode : Nat) : Reader Instruction :=
  if opcode = 0x10 then do return .plain opcode (← Reader.bytes 1)
  else if opcode = 0x11 then do return .plain opcode (← Reader.bytes 2)
  else if opcode = 0x12 then do
    let n ← Reader.number 1
    return .load opcode (← Reader.known ((literal? cs n).filter (!·.isWide)))
  else if opcode = 0x13 then do
    return .load opcode (← readSlot fun n => (literal? cs n).filter (!·.isWide))
  else if opcode = 0x14 then do
    return .load opcode (← readSlot fun n => (literal? cs n).filter (·.isWide))
  else if 0x01 ≤ opcode ∧ opcode ≤ 0x0F ∨ 0xAC ≤ opcode ∧ opcode ≤ 0xB1 then
    return .plain opcode []
  else failure

/-- Reads an instruction. -/
def readInstruction (cs : List Constant) : Reader Instruction := do
  readOperand cs (← Reader.number 1)

/-- The instructions that bytes consist of, if they are no more than `n`. -/
def instructions? (cs : List Constant) : Nat → List UInt8 → Option (List Instruction)
  | _, [] => some []
  | 0, _ => none
  | n + 1, bytes =>
    match readInstruction cs bytes with
    | some (i, rest) => (instructions? cs n rest).map (i :: ·)
    | none => none

/-- Reads an exception handler. -/
def readHandler (cs : List Constant) : Reader Handler := do
  let start ← Reader.number 2
  let stop ← Reader.number 2
  let target ← Reader.number 2
  return ⟨start, stop, target, ← readSuperclass cs⟩

/-- Reads the contents of a code attribute. -/
def readCode (cs : List Constant) : Reader Code := do
  let maxStack ← Reader.number 2
  let maxLocals ← Reader.number 2
  let bytes ← Reader.bytes (← Reader.number 4)
  let instructions ← Reader.known (instructions? cs bytes.length bytes)
  let handlers ← Reader.counted 2 (readHandler cs)
  return ⟨maxStack, maxLocals, instructions, handlers,
    ← Reader.counted 2 (Grammar.readAttribute cs)⟩

/-- Reads the contents of an attribute of some name, which are `size` bytes. -/
def readContents (cs : List Constant) (size : Nat) : String → Reader Attribute
  | "ConstantValue" => do return .constantValue (← readSlot (literal? cs))
  | "Code" => do return .code (← readCode cs)
  | "SourceFile" => do return .sourceFile (← readSlot (text? cs))
  | "Signature" => do return .signature (← readSlot (text? cs))
  | "Exceptions" => do return .exceptions (← Reader.counted 2 (readSlot (className? cs)))
  | "RuntimeVisibleAnnotations" => do
    return .annotations true (← Reader.counted 2 (readAnnotationForm cs size))
  | "RuntimeInvisibleAnnotations" => do
    return .annotations false (← Reader.counted 2 (readAnnotationForm cs size))
  | "RuntimeVisibleParameterAnnotations" => do
    return .parameterAnnotations true
      (← Reader.counted 1 (Reader.counted 2 (readAnnotationForm cs size)))
  | "RuntimeInvisibleParameterAnnotations" => do
    return .parameterAnnotations false
      (← Reader.counted 1 (Reader.counted 2 (readAnnotationForm cs size)))
  | name => do return .other name (← Reader.bytes size)

/-- Reads an attribute, the contents of which are all of its bytes. -/
def readAttribute (cs : List Constant) : Reader Attribute := do
  let name ← readSlot (text? cs)
  let info ← Reader.bytes (← Reader.number 4)
  Reader.known (whole? (readContents cs info.length name) info)

/-- Reads a field or a method. -/
def readMember (cs : List Constant) : Reader Member := do
  let flags ← Reader.number 2
  let name ← readSlot (text? cs)
  let descriptor ← readSlot (text? cs)
  return ⟨flags, name, descriptor, ← Reader.counted 2 (readAttribute cs)⟩

/-- Reads a class file. -/
def readClass : Reader Class := do
  let lead ← Reader.bytes 4
  guard (lead = magic)
  let minor ← Reader.number 2
  let major ← Reader.number 2
  let cs ← readConstants ((← Reader.number 2) - 1)
  guard (cs.all (refersToText cs))
  let flags ← Reader.number 2
  let name ← readSlot (className? cs)
  let superclass ← readSuperclass cs
  let interfaces ← Reader.counted 2 (readSlot (className? cs))
  let fields ← Reader.counted 2 (readMember cs)
  let methods ← Reader.counted 2 (readMember cs)
  return ⟨minor, major, flags, name, superclass, interfaces, fields, methods,
    ← Reader.counted 2 (readAttribute cs)⟩

/-- The class that a class file is of. -/
def read (bytes : List UInt8) : Option Class := whole? readClass bytes

/-! ## Lists that can be counted -/

mutual

/-- Whether two bytes can count the items of each list in a value. -/
def ElementValue.isCountable : ElementValue → Bool
  | .constant _ _ | .enum _ _ | .classInfo _ => true
  | .nested _ elements => elements.length < 2 ^ 16 && ElementValue.elementsCountable elements
  | .array items => items.length < 2 ^ 16 && ElementValue.itemsCountable items

/-- Whether that holds of each value of a list. -/
def ElementValue.itemsCountable : List ElementValue → Bool
  | [] => true
  | v :: vs => v.isCountable && ElementValue.itemsCountable vs

/-- Whether that holds of the value of each element of a list. -/
def ElementValue.elementsCountable : List (String × ElementValue) → Bool
  | [] => true
  | (_, v) :: elements => v.isCountable && ElementValue.elementsCountable elements

end

/-- Items are countable if each of them is. -/
theorem ElementValue.itemsCountable_iff {vs : List ElementValue} :
    ElementValue.itemsCountable vs = true ↔ ∀ v ∈ vs, v.isCountable = true := by
  induction vs with
  | nil => simp [ElementValue.itemsCountable]
  | cons v vs ih => simp [ElementValue.itemsCountable, ih]

theorem ElementValue.elementsCountable_iff {elements : List (String × ElementValue)} :
    ElementValue.elementsCountable elements = true ↔ ∀ e ∈ elements, e.2.isCountable = true := by
  induction elements with
  | nil => simp [ElementValue.elementsCountable]
  | cons e elements ih => simp [ElementValue.elementsCountable, ih]

/-- The lists in an annotation can be counted. -/
def Annotation.isCountable (a : Annotation) : Bool :=
  a.elements.length < 2 ^ 16 && ElementValue.elementsCountable a.elements

/-- A list of annotations and the lists in them can be counted. -/
def areCountable (annotations : List Annotation) : Bool :=
  annotations.length < 2 ^ 16 && annotations.all Annotation.isCountable

/-- The lists in an attribute can be counted; those of the annotations of parameters in
one byte. -/
def Attribute.isCountable : Attribute → Bool
  | exceptions classes => classes.length < 2 ^ 16
  | annotations _ list => areCountable list
  | parameterAnnotations _ parameters => parameters.length < 2 ^ 8 && parameters.all areCountable
  | _ => true

/-! ## What bytes tell -/

/-- From the pool on, the reader reads the bytes as the value. -/
def Tells {α : Type} (p : ConstantPool) (d : List Constant → Reader α) (bytes : List UInt8) (a : α) :
    Prop :=
  ∀ q, Grown p q → WellFormed q → Spells (d q.constants.toList) bytes a

namespace Tells

variable {α β : Type} {p : ConstantPool} {d : List Constant → Reader α}

/-- What bytes say stays so when a pool grows. -/
theorem persistent (d : List Constant → Reader α) (bytes : List UInt8) (a : α) :
    Persistent fun p => Tells p d bytes a :=
  fun _ _ grown tells r further wf => tells r (grown.trans further) wf

/-- What needs no pool. -/
theorem const {d : Reader α} {bytes : List UInt8} {a : α} (h : Spells d bytes a) :
    Tells p (fun _ => d) bytes a := fun _ _ _ => h

/-- Two steps say what the second does behind the first. -/
theorem bind {f : List Constant → α → Reader β} {front back : List UInt8} {a : α} {b : β}
    (first : Tells p d front a) (second : Tells p (fun cs => f cs a) back b) :
    Tells p (fun cs => d cs >>= f cs) (front ++ back) b :=
  fun q grown wf => (first q grown wf).bind (second q grown wf)

/-- What is made of a result is said by its bytes. -/
theorem map {bytes : List UInt8} {a : α} (f : α → β) (h : Tells p d bytes a) :
    Tells p (fun cs => do return f (← d cs)) bytes (f a) :=
  fun q grown wf => (h q grown wf).map f

/-- Items are said by their pieces, behind their number. -/
theorem counted {width : Nat} {pieces : List (List UInt8)} {as : List α}
    (each : List.Forall₂ (Tells p d) pieces as) (few : as.length < 256 ^ width) :
    Tells p (fun cs => Reader.counted width (d cs)) (countedItems width pieces) as :=
  fun q grown wf => Spells.counted (each.imp fun _ _ tells => tells q grown wf) few

/-- A slot at which something stands, where that is what is looked up. -/
theorem slot {find? : List Constant → Nat → Option α} {n : Nat} {c : Constant} {a : α}
    (stands : p.Holds n c) (found : ∀ q, Grown p q → find? q.constants.toList n = some a) :
    Tells p (fun cs => readSlot (find? cs)) (be 2 n) a :=
  fun q grown wf => Spells.slot ((stands.mono grown).lt wf) (found q grown)

/-- A text is said by its slot. -/
theorem text {n : Nat} {s : String} (stands : p.Holds n (.utf8 s)) :
    Tells p (fun cs => readSlot (text? cs)) (be 2 n) s :=
  slot stands fun _ grown => text?_eq (stands.mono grown)

theorem className {n : Nat} {s : String} (stands : p.HoldsClass n s) :
    Tells p (fun cs => readSlot (className? cs)) (be 2 n) s := by
  obtain ⟨text, refers, holds⟩ := stands
  exact slot refers fun _ grown => className?_eq ⟨text, refers.mono grown, holds.mono grown⟩

/-- All of the bytes. -/
theorem whole {bytes : List UInt8} {a : α} (h : Tells p d bytes a) {q : ConstantPool}
    (grown : Grown p q) (wf : WellFormed q) : whole? (d q.constants.toList) bytes = some a :=
  (h q grown wf).whole

end Tells

/-! ## Literals -/

/-- The literal is the constant at the slot. -/
def Literal.Stands (p : ConstantPool) (n : Nat) : Literal → Prop
  | int v => p.Holds n (.integer v)
  | float bits => p.Holds n (.float bits)
  | long v => p.Holds n (.long v)
  | double bits => p.Holds n (.double bits)
  | string s => ∃ text, p.Holds n (.stringRef text) ∧ p.Holds text (.utf8 s)

namespace Literal.Stands

variable {p q : ConstantPool} {n : Nat} {l : Literal}

/-- A literal stays in its slot when a pool grows. -/
theorem mono (h : l.Stands p n) (grown : Grown p q) : l.Stands q n := by
  cases l with
  | string s => exact h.imp fun _ found => ⟨found.1.mono grown, found.2.mono grown⟩
  | _ => exact Holds.mono h grown

/-- A slot with a literal holds a constant. -/
theorem holds (h : l.Stands p n) : ∃ c, p.Holds n c := by
  cases l with
  | string s => exact h.imp' _ fun _ found => found.1
  | _ => exact ⟨_, h⟩

/-- The literal is found there. -/
theorem literal?_eq (h : l.Stands p n) : literal? p.constants.toList n = some l := by
  rw [literal?]
  cases l with
  | string s =>
    obtain ⟨text, refers, holds⟩ := h
    rw [show constantAt 1 p.constants.toList n = some (.stringRef text) from refers]
    dsimp only
    rw [text?_eq holds, Option.map_some]
  | int v => rw [show constantAt 1 p.constants.toList n = some (.integer v) from h]
  | float bits => rw [show constantAt 1 p.constants.toList n = some (.float bits) from h]
  | long v => rw [show constantAt 1 p.constants.toList n = some (.long v) from h]
  | double bits => rw [show constantAt 1 p.constants.toList n = some (.double bits) from h]

/-- It is said by its slot. -/
theorem tells (h : l.Stands p n) : Tells p (fun cs => readSlot (literal? cs)) (be 2 n) l := by
  obtain ⟨c, holds⟩ := h.holds
  exact Tells.slot holds fun q grown => (h.mono grown).literal?_eq

/-- So it is if a reader keeps it. -/
theorem tells_if (h : l.Stands p n) {keep : Literal → Bool} (kept : keep l = true) :
    Tells p (fun cs => readSlot fun n => (literal? cs n).filter keep) (be 2 n) l := by
  obtain ⟨c, holds⟩ := h.holds
  refine Tells.slot holds fun q grown => ?_
  rw [(h.mono grown).literal?_eq, Option.filter_some, if_pos kept]

end Literal.Stands

end StubJar.ClassFile.Resolved
