import StubJar.Proofs.ClassFile.Resolved
import StubJar.Proofs.Success

/-!
# What the parts of a class file tell

The bytes of values, annotations, instructions and attributes are read as what they
were made of, if the slots in them are those of the right constants and two bytes can
count each list (`FormTells.nested`, `AnnotationTells.of_elements`), and so is a class
(`read_encode`). The nesting of values is bounded by the number of their bytes.
-/

namespace StubJar.ClassFile.Resolved

open StubJar.Bytes StubJar.ClassFile.ConstantPool
open StubJar.ClassFile.Grammar (Reader Spells text? className? readSlot readConstants
  readSuperclass whole?)

variable {p : ConstantPool}

/-- Items behind their number are read one after another, if each is read as what it is
related to. -/
theorem Tells.counted_map {α γ : Type} {R : γ → α → Prop} {width : Nat} {form : γ → List UInt8}
    {d : List Constant → Reader α} {gs : List γ} {as : List α} (related : List.Forall₂ R gs as)
    (few : as.length < 256 ^ width) (each : ∀ g ∈ gs, ∀ a ∈ as, R g a → Tells p d (form g) a) :
    Tells p (fun cs => Reader.counted width (d cs)) (countedItems width (gs.map form)) as :=
  .counted (List.forall₂_map_left_iff.mpr (forall₂_imp_of_mem related each)) few

/-- A byte is read as its number. -/
theorem spells_byte (b : UInt8) : Spells (Reader.number 1) [b] b.toNat := by
  have read := Spells.number (k := 1) (n := b.toNat) b.toNat_lt
  simpa [be, le] using read

/-! ## Values -/

/-- Where values are nested deep enough to read the form, it is read as the value. -/
def FormTells (p : ConstantPool) (form : ClassFile.ElementValue) (x : ElementValue) : Prop :=
  x.isCountable = true →
    ∀ depth, form.encode.length ≤ depth → Tells p (fun cs => readElement cs depth) form.encode x

namespace FormTells

/-- What an element says stays so when a pool grows. -/
theorem persistent (form : ClassFile.ElementValue) (x : ElementValue) :
    Persistent fun p => FormTells p form x :=
  fun p q grown tells countable depth enough =>
    Tells.persistent _ _ _ p q grown (tells countable depth enough)

/-- A value is read by its letter. -/
theorem of_tag {form : ClassFile.ElementValue} {x : ElementValue} {tag : UInt8} {rest : List UInt8}
    (bytes : form.encode = tag :: rest)
    (tagged : x.isCountable = true → ∀ depth, rest.length ≤ depth →
      Tells p (fun cs => readTagged cs (readElement cs depth) tag.toNat) rest x) :
    FormTells p form x := by
  intro countable depth enough
  rw [bytes] at enough ⊢
  cases depth with
  | zero => cases enough
  | succ depth =>
    exact (Tells.const (spells_byte tag)).bind (tagged countable depth (Nat.le_of_succ_le_succ enough))

/-- A constant of an enumeration is said by the slots of its type and of its name. -/
theorem enum {n m : Nat} {type name : String} (first : p.Holds n (.utf8 type))
    (second : p.Holds m (.utf8 name)) : FormTells p (.enum n m) (.enum type name) := by
  refine of_tag (by rw [ClassFile.ElementValue.encode]) fun _ depth _ => ?_
  exact (Tells.text first).bind ((Tells.text second).map _)

/-- A class is said by the slot of its descriptor. -/
theorem classInfo {n : Nat} {descriptor : String} (holds : p.Holds n (.utf8 descriptor)) :
    FormTells p (.classInfo n) (.classInfo descriptor) := by
  refine of_tag (by rw [ClassFile.ElementValue.encode]) fun _ depth _ => ?_
  exact (Tells.text holds).map _

/-- The items of an array are written one behind another. -/
theorem encodeItems_eq (forms : List ClassFile.ElementValue) :
    ClassFile.ElementValue.encodeItems forms = forms.map ClassFile.ElementValue.encode := by
  induction forms with
  | nil => rw [ClassFile.ElementValue.encodeItems, List.map_nil]
  | cons form forms ih => rw [ClassFile.ElementValue.encodeItems, ih, List.map_cons]

/-- The elements of an annotation are written behind their names. -/
theorem encodeElements_eq (forms : List (Nat × ClassFile.ElementValue)) :
    ClassFile.ElementValue.encodeElements forms = forms.map fun e => be 2 e.1 ++ e.2.encode := by
  induction forms with
  | nil => rw [ClassFile.ElementValue.encodeElements, List.map_nil]
  | cons form forms ih => rw [ClassFile.ElementValue.encodeElements, ih, List.map_cons]

/-- An array is said by its items. -/
theorem array {forms : List ClassFile.ElementValue} {xs : List ElementValue}
    (each : List.Forall₂ (FormTells p) forms xs) : FormTells p (.array forms) (.array xs) := by
  refine of_tag (by rw [ClassFile.ElementValue.encode]) fun countable depth enough => ?_
  rw [encodeItems_eq] at enough ⊢
  simp only [ElementValue.isCountable, Bool.and_eq_true, decide_eq_true_eq,
    ElementValue.itemsCountable_iff] at countable
  refine (Tells.counted_map each countable.1 fun form hf x hx tells => ?_).map _
  refine tells (countable.2 x hx) depth (Nat.le_trans ?_ enough)
  exact Grammar.length_le_countedItems (List.mem_map_of_mem hf)

end FormTells

/-- A number as the value of an element, with the letter of its kind. -/
theorem tells_number {n tag : Nat} {l : Literal} (stands : l.Stands p n) (kind : l.hasTag tag = true)
    (other : tag ≠ 0x73) : Tells p (fun cs => readSlot (elementLiteral? cs tag)) (be 2 n) l := by
  unfold elementLiteral?
  simp only [if_neg other]
  exact stands.tells_if kind

/-- A text as the value of an element. -/
theorem tells_string {n : Nat} {s : String} (holds : p.Holds n (.utf8 s)) :
    Tells p (fun cs => readSlot (elementLiteral? cs 0x73)) (be 2 n) (.string s) := by
  refine Tells.slot holds fun q grown => ?_
  unfold elementLiteral?
  rw [if_pos rfl, Grammar.text?_eq (holds.mono grown), Option.map_some]

/-- Under the letter of its kind, a number is a value of its own. -/
theorem readTagged_number {tag : Nat} {l : Literal} (kind : l.hasTag tag = true) (cs : List Constant)
    (d : Reader ElementValue) :
    readTagged cs d tag = do return .constant tag (← readSlot (elementLiteral? cs tag)) := by
  cases l with
  | int v =>
    simp only [Literal.hasTag, decide_eq_true_eq, List.mem_cons, List.not_mem_nil, or_false] at kind
    rcases kind with rfl | rfl | rfl | rfl | rfl
    all_goals rfl
  | string s => cases kind
  | _ =>
    simp only [Literal.hasTag, decide_eq_true_eq] at kind
    subst kind
    rfl

/-- A number is said by its slot and its letter. -/
theorem FormTells.number {n : Nat} {tag : UInt8} {l : Literal} (stands : l.Stands p n)
    (kind : l.hasTag tag.toNat = true) : FormTells p (.constant tag n) (.constant tag.toNat l) := by
  have other : tag.toNat ≠ 0x73 := by
    intro same
    rw [same] at kind
    cases l <;> simp [Literal.hasTag] at kind
  refine of_tag (by rw [ClassFile.ElementValue.encode]) fun _ depth _ => ?_
  simp only [readTagged_number kind]
  exact (tells_number stands kind other).map _

/-- A text is said by its slot. -/
theorem FormTells.string {n : Nat} {s : String} (holds : p.Holds n (.utf8 s)) :
    FormTells p (.constant 0x73 n) (.constant 0x73 (.string s)) := by
  refine of_tag (by rw [ClassFile.ElementValue.encode]) fun _ depth _ => ?_
  exact (tells_string holds).map _

/-- The element is read as the name and the value. -/
def ElementTells (p : ConstantPool) (e : Nat × ClassFile.ElementValue) (x : String × ElementValue) :
    Prop :=
  p.Holds e.1 (.utf8 x.1) ∧ FormTells p e.2 x.2

/-- Elements behind their number are read one after another. -/
theorem tells_elements {elements : List (Nat × ClassFile.ElementValue)}
    {xs : List (String × ElementValue)} (each : List.Forall₂ (ElementTells p) elements xs)
    (few : xs.length < 2 ^ 16) (countable : ∀ x ∈ xs, x.2.isCountable = true) {depth : Nat}
    (enough : (countedItems 2 (ClassFile.ElementValue.encodeElements elements)).length ≤ depth) :
    Tells p (fun cs => Reader.counted 2 (readNamed cs (readElement cs depth)))
      (countedItems 2 (ClassFile.ElementValue.encodeElements elements)) xs := by
  rw [FormTells.encodeElements_eq] at enough ⊢
  refine Tells.counted_map each few fun e he x hx tells => ?_
  have listed : be 2 e.1 ++ e.2.encode ∈ elements.map fun e => be 2 e.1 ++ e.2.encode :=
    List.mem_map.mpr ⟨e, he, rfl⟩
  have shorter := Nat.le_trans (Grammar.length_le_countedItems listed) enough
  have inner := Nat.le_trans (List.sublist_append_right _ _).length_le shorter
  exact (Tells.text tells.1).bind ((tells.2 (countable x hx) depth inner).map fun v => (x.1, v))

/-- An annotation inside another is said by the slot of its type and its elements. -/
theorem FormTells.nested {n : Nat} {type : String} {elements : List (Nat × ClassFile.ElementValue)}
    {xs : List (String × ElementValue)} (holds : p.Holds n (.utf8 type))
    (each : List.Forall₂ (ElementTells p) elements xs) :
    FormTells p (.nested n elements) (.nested type xs) := by
  refine of_tag (by rw [ClassFile.ElementValue.encode]) fun countable depth enough => ?_
  simp only [ElementValue.isCountable, Bool.and_eq_true, decide_eq_true_eq,
    ElementValue.elementsCountable_iff] at countable
  have inner := tells_elements each countable.1 countable.2
    (Nat.le_trans (List.sublist_append_right _ _).length_le enough)
  exact (Tells.text holds).bind (inner.map (ElementValue.nested type))

/-! ## Annotations -/

/-- The form is read as the annotation. -/
def AnnotationTells (p : ConstantPool) (form : ClassFile.Annotation) (x : Annotation) : Prop :=
  x.isCountable = true →
    ∀ depth, form.encode.length ≤ depth → Tells p (fun cs => readAnnotationForm cs depth) form.encode x

namespace AnnotationTells

/-- What an annotation says stays so when a pool grows. -/
theorem persistent (form : ClassFile.Annotation) (x : Annotation) :
    Persistent fun p => AnnotationTells p form x :=
  fun p q grown tells countable depth enough =>
    Tells.persistent _ _ _ p q grown (tells countable depth enough)

/-- An annotation is said by the slot of its type and its elements. -/
theorem of_elements {form : ClassFile.Annotation} {x : Annotation}
    (holds : p.Holds form.type (.utf8 x.type))
    (each : List.Forall₂ (ElementTells p) form.elements x.elements) : AnnotationTells p form x := by
  intro countable depth enough
  unfold Annotation.isCountable at countable
  simp only [Bool.and_eq_true, decide_eq_true_eq, ElementValue.elementsCountable_iff] at countable
  unfold ClassFile.Annotation.encode at enough ⊢
  have inner := tells_elements each countable.1 countable.2
    (Nat.le_trans (List.sublist_append_right _ _).length_le enough)
  exact (Tells.text holds).bind (inner.map fun xs => (⟨x.type, xs⟩ : Annotation))

end AnnotationTells

/-- Annotations behind their number are read one after another. -/
theorem tells_annotations {forms : List ClassFile.Annotation} {xs : List Annotation}
    (each : List.Forall₂ (AnnotationTells p) forms xs) (countable : areCountable xs = true) {depth : Nat}
    (enough : (encodeAnnotations forms).length ≤ depth) :
    Tells p (fun cs => Reader.counted 2 (readAnnotationForm cs depth)) (encodeAnnotations forms) xs := by
  simp only [areCountable, Bool.and_eq_true, decide_eq_true_eq, List.all_eq_true] at countable
  refine Tells.counted_map each countable.1 fun form hf x hx tells => ?_
  refine tells (countable.2 x hx) depth (Nat.le_trans ?_ enough)
  exact Grammar.length_le_countedItems (List.mem_map_of_mem hf)

/-! ## Code -/

/-- The number of an opcode is its byte. -/
theorem spells_opcode (opcode : Nat) (fits : opcode < 256) :
    Spells (Reader.number 1) [UInt8.ofNat opcode] opcode :=
  Spells.number (k := 1) fits

/-- What is left of a number in its width is read. -/
theorem spells_number_mod (k n : Nat) : Spells (Reader.number k) (be k n) (n % 256 ^ k) := by
  have read := (Spells.bytes (be k n)).map fun found => ofLe found.reverse
  rwa [length_be, be, List.reverse_reverse, ofLe_le_mod, ← be] at read

/-- What the instruction loads, if it loads anything, is a constant of the width. -/
def Loads (p : ConstantPool) : ClassFile.Instruction → Prop
  | .ldc n => ∃ l : Literal, l.Stands p n ∧ (!l.isWide) = true
  | .ldcWide n => ∃ l : Literal, l.Stands p n ∧ l.isWide = true
  | _ => True

/-- An instruction with an operand that is no slot. -/
theorem tells_plain (opcode : Nat) {operand : List UInt8} (fits : opcode < 256)
    (read : ∀ cs, readOperand cs opcode
      = do return .plain opcode (← Reader.bytes operand.length)) :
    Tells p readInstruction (UInt8.ofNat opcode :: operand) (.plain opcode operand) := by
  refine (Tells.const (spells_opcode opcode fits)).bind ?_
  simp only [read]
  exact (Tells.const (Spells.bytes operand)).map _

/-- An instruction that is its opcode. -/
theorem tells_bare (opcode : Nat)
    (bare : 0x01 ≤ opcode ∧ opcode ≤ 0x0F ∨ 0xAC ≤ opcode ∧ opcode ≤ 0xB1) :
    Tells p readInstruction [UInt8.ofNat opcode] (.plain opcode []) := by
  have read (cs : List Constant) : readOperand cs opcode = pure (.plain opcode []) := by
    unfold readOperand
    rw [if_neg (by omega), if_neg (by omega), if_neg (by omega), if_neg (by omega),
      if_neg (by omega), if_pos bare]
  rw [← List.append_nil [UInt8.ofNat opcode]]
  refine (Tells.const (spells_opcode opcode (by omega))).bind ?_
  simp only [read]
  exact Tells.const (Spells.pure _)

/-- An instruction with a slot is read with the constant that stands there, whether the slot
takes one byte or two. -/
theorem tells_ldc {n : Nat} {l : Literal} (stands : l.Stands p n) (narrow : (!l.isWide) = true) :
    ∃ opcode, Tells p readInstruction (ClassFile.Instruction.ldc n).encode (.load opcode l) := by
  rw [ClassFile.Instruction.encode]
  by_cases short : n < 0x100
  · rw [if_pos short]
    refine ⟨0x12, fun q grown wf => ?_⟩
    have operand : Spells (Reader.known ((literal? q.constants.toList n).filter (!·.isWide))) [] l := by
      rw [(stands.mono grown).literal?_eq, Option.filter_some, if_pos narrow]
      exact Spells.known l
    exact (spells_opcode 0x12 (by decide)).bind
      ((Spells.number (k := 1) short).bind (operand.map _))
  · rw [if_neg short]
    exact ⟨0x13, (Tells.const (spells_opcode 0x13 (by decide))).bind
      ((stands.tells_if narrow).map _)⟩

/-- A wide constant is loaded from its slot. -/
theorem tells_ldcWide {n : Nat} {l : Literal} (stands : l.Stands p n) (wide : l.isWide = true) :
    Tells p readInstruction (ClassFile.Instruction.ldcWide n).encode (.load 0x14 l) :=
  (Tells.const (spells_opcode 0x14 (by decide))).bind ((stands.tells_if wide).map _)

/-- Every instruction that loads what it can is read, as an instruction with the constant
in place of its slot. -/
theorem exists_instruction {i : ClassFile.Instruction} (loads : Loads p i) :
    i.encode ≠ [] ∧ ∃ x, Tells p readInstruction i.encode x := by
  cases i with
  | aconstNull => exact ⟨List.cons_ne_nil _ _, _, tells_bare 0x01 (by omega)⟩
  | iconst k => exact ⟨List.cons_ne_nil _ _, _, tells_bare (0x02 + k) (by omega)⟩
  | lconst k => exact ⟨List.cons_ne_nil _ _, _, tells_bare (0x09 + k) (by omega)⟩
  | fconst k => exact ⟨List.cons_ne_nil _ _, _, tells_bare (0x0B + k) (by omega)⟩
  | dconst k => exact ⟨List.cons_ne_nil _ _, _, tells_bare (0x0E + k) (by omega)⟩
  | bipush v =>
    exact ⟨List.cons_ne_nil _ _, _, tells_plain 0x10 (by decide) fun _ => rfl⟩
  | sipush v =>
    refine ⟨List.cons_ne_nil _ _, _, tells_plain 0x11 (by decide) fun _ => ?_⟩
    rw [length_be]
    rfl
  | ldc n =>
    obtain ⟨l, stands, narrow⟩ := loads
    obtain ⟨opcode, tells⟩ := tells_ldc stands narrow
    refine ⟨?_, _, tells⟩
    rw [ClassFile.Instruction.encode]
    split <;> exact List.cons_ne_nil _ _
  | ldcWide n =>
    obtain ⟨l, stands, wide⟩ := loads
    exact ⟨List.cons_ne_nil _ _, _, tells_ldcWide stands wide⟩
  | ret kind =>
    refine ⟨List.cons_ne_nil _ _, _, tells_bare kind.opcode ?_⟩
    cases kind <;> decide

/-- All bytes of the instructions are read, one instruction after another. -/
theorem instructions?_eq {cs : List Constant} {is : List ClassFile.Instruction}
    {xs : List Instruction} (each : List.Forall₂
      (fun i x => i.encode ≠ [] ∧ Spells (readInstruction cs) i.encode x) is xs) {n : Nat}
    (enough : (is.flatMap ClassFile.Instruction.encode).length ≤ n) :
    instructions? cs n (is.flatMap ClassFile.Instruction.encode) = some xs := by
  induction each generalizing n with
  | nil => cases n <;> rfl
  | @cons i x is xs head _ ih =>
    obtain ⟨b, bytes, form⟩ := List.exists_cons_of_ne_nil head.1
    have read := head.2 (is.flatMap ClassFile.Instruction.encode)
    rw [List.flatMap_cons, List.length_append, form, List.length_cons] at enough
    rw [List.flatMap_cons]
    rw [form, List.cons_append] at read ⊢
    cases n with
    | zero => omega
    | succ n =>
      rw [instructions?, read]
      · dsimp only
        rw [ih (by omega), Option.map_some]
      · exact List.cons_ne_nil _ _

/-- The code is read as the instructions that its bytes are of, without handlers and attributes
of its own. -/
theorem tells_code {c : ClassFile.Code} {is : List ClassFile.Instruction} {xs : List Instruction}
    (each : List.Forall₂ (fun i x => i.encode ≠ [] ∧ Tells p readInstruction i.encode x) is xs)
    (form : c.code = is.flatMap ClassFile.Instruction.encode) (short : c.code.length < 2 ^ 32)
    (bare : c.attributes = []) :
    Tells p readCode c.encode ⟨c.maxStack % 2 ^ 16, c.maxLocals % 2 ^ 16, xs, [], []⟩ := by
  intro q grown wf
  have handlers : Spells (Reader.counted 2 (readHandler q.constants.toList)) (countedItems 2 []) [] :=
    Spells.counted .nil (by decide)
  have attributes : Spells (Reader.counted 2 (Grammar.readAttribute q.constants.toList))
      (countedItems 2 []) [] := Spells.counted .nil (by decide)
  have instructions : Spells (Reader.known
      (instructions? q.constants.toList c.code.length c.code)) [] xs := by
    rw [form, instructions?_eq (each.imp fun i x found => ⟨found.1, found.2 q grown wf⟩) (Nat.le_refl _)]
    exact Spells.known xs
  have none : be 2 0 = countedItems 2 [] := rfl
  rw [ClassFile.Code.encode, bare, List.map_nil, none]
  simp only [List.append_assoc]
  refine (spells_number_mod 2 _).bind ((spells_number_mod 2 _).bind ?_)
  refine (Spells.number (k := 4) short).bind ((Spells.bytes c.code).bind ?_)
  rw [← List.nil_append (countedItems 2 [] ++ _)]
  exact instructions.bind (handlers.bind (attributes.map _))

/-- The code is read as some code without handlers and attributes of its own. -/
theorem exists_code {c : ClassFile.Code} {is : List ClassFile.Instruction}
    (loads : ∀ i ∈ is, Loads p i) (form : c.code = is.flatMap ClassFile.Instruction.encode)
    (short : c.code.length < 2 ^ 32) (bare : c.attributes = []) :
    ∃ x : Code, x.maxLocals = c.maxLocals % 2 ^ 16 ∧ x.handlers = [] ∧ x.attributes = []
      ∧ Tells p readCode c.encode x := by
  obtain ⟨xs, each⟩ := exists_forall₂ fun i mem =>
    (exists_instruction (loads i mem)).2.imp fun x tells =>
      (⟨(exists_instruction (loads i mem)).1, tells⟩ : i.encode ≠ [] ∧ Tells p readInstruction i.encode x)
  exact ⟨_, rfl, rfl, rfl, tells_code each form short bare⟩

/-! ## Attributes -/

/-- The contents are read as the attribute, under their name. -/
def ContentTells (p : ConstantPool) (content : Content) (x : Attribute) : Prop :=
  x.isCountable = true →
    Tells p (fun cs => readContents cs content.encode.length content.name) content.encode x

namespace ContentTells

/-- What the contents of an attribute say stays so when a pool grows. -/
theorem persistent (content : Content) (x : Attribute) :
    Persistent fun p => ContentTells p content x :=
  fun p q grown tells countable => Tells.persistent _ _ _ p q grown (tells countable)

/-- The value of a constant field is said by its slot. -/
theorem constantValue {n : Nat} {l : Literal} (stands : l.Stands p n) :
    ContentTells p (.constantValue n) (.constantValue l) := fun _ => stands.tells.map _

/-- Code is said by its own bytes. -/
theorem code {c : ClassFile.Code} {x : Code} (tells : Tells p readCode c.encode x) :
    ContentTells p (.code c) (.code x) := fun _ => tells.map _

/-- The file of a class is said by its slot. -/
theorem sourceFile {n : Nat} {s : String} (holds : p.Holds n (.utf8 s)) :
    ContentTells p (.sourceFile n) (.sourceFile s) := fun _ => (Tells.text holds).map _

theorem signature {n : Nat} {s : String} (holds : p.Holds n (.utf8 s)) :
    ContentTells p (.signature n) (.signature s) := fun _ => (Tells.text holds).map _

/-- Exceptions are said by the slots of their classes. -/
theorem exceptions {ns : List Nat} {names : List String}
    (each : List.Forall₂ p.HoldsClass ns names) :
    ContentTells p (.exceptions ns) (.exceptions names) := by
  intro countable
  simp only [Attribute.isCountable, decide_eq_true_eq] at countable
  exact (Tells.counted_map each countable fun _ _ _ _ holds => Tells.className holds).map _

/-- Annotations are said one by one. -/
theorem annotations {visible : Bool} {forms : List ClassFile.Annotation} {xs : List Annotation}
    (each : List.Forall₂ (AnnotationTells p) forms xs) :
    ContentTells p (.annotations visible forms) (.annotations visible xs) := by
  intro countable
  have tells := tells_annotations each countable (Nat.le_refl _)
  cases visible with
  | true => exact tells.map _
  | false => exact tells.map _

theorem parameterAnnotations {visible : Bool} {forms : List (List ClassFile.Annotation)}
    {xs : List (List Annotation)}
    (each : List.Forall₂ (List.Forall₂ (AnnotationTells p)) forms xs) :
    ContentTells p (.parameterAnnotations visible forms) (.parameterAnnotations visible xs) := by
  intro countable
  simp only [Attribute.isCountable, Bool.and_eq_true, decide_eq_true_eq, List.all_eq_true]
    at countable
  have tells : Tells p (fun cs => Reader.counted 1 (Reader.counted 2 (readAnnotationForm cs
      (countedItems 1 (forms.map encodeAnnotations)).length)))
      (countedItems 1 (forms.map encodeAnnotations)) xs := by
    refine Tells.counted_map each countable.1 fun form hf x hx tells => ?_
    exact tells_annotations tells (countable.2 x hx)
      (Grammar.length_le_countedItems (List.mem_map_of_mem hf))
  cases visible with
  | true => exact tells.map _
  | false => exact tells.map _

end ContentTells

/-- Bytes behind their number are read as what is made of them. -/
theorem spells_sized {α : Type} {make : List UInt8 → Option α} {data : List UInt8} {a : α}
    (short : data.length < 2 ^ 32) (made : make data = some a) :
    Spells (do
      let info ← Reader.bytes (← Reader.number 4)
      Reader.known (make info)) (be 4 data.length ++ data) a := by
  have known : Spells (Reader.known (make data)) [] a := by
    rw [made]
    exact Spells.known a
  have read := (Spells.bytes data).bind (f := fun info => Reader.known (make info)) known
  rw [List.append_nil] at read
  exact (Spells.number (k := 4) short).bind read

/-- The attribute is read as what it stands for. -/
def AttributeTells (p : ConstantPool) (a : ClassFile.Attribute) (x : Attribute) : Prop :=
  x.isCountable = true → a.info.length < 2 ^ 32 → Tells p readAttribute a.encode x

namespace AttributeTells

/-- What an attribute says stays so when a pool grows. -/
theorem persistent (a : ClassFile.Attribute) (x : Attribute) :
    Persistent fun p => AttributeTells p a x :=
  fun p q grown tells countable short => Tells.persistent _ _ _ p q grown (tells countable short)

/-- An attribute says what its contents say, under the name of these. -/
theorem of_content {a : ClassFile.Attribute} {content : Content} {x : Attribute}
    (named : a.Named p content.name) (info : a.info = content.encode)
    (tells : ContentTells p content x) : AttributeTells p a x := by
  intro countable short q grown wf
  have found : whole? (readContents q.constants.toList a.info.length content.name) a.info = some x := by
    rw [info]
    exact (tells countable).whole grown wf
  unfold ClassFile.Attribute.encode
  rw [List.append_assoc]
  exact (Tells.text named q grown wf).bind (spells_sized short found)

end AttributeTells

/-- Four bytes can count the bytes of each attribute. -/
def AllShort (as : List ClassFile.Attribute) : Prop := ∀ a ∈ as, a.info.length < 2 ^ 32

/-- Attributes behind their number are read one after another. -/
theorem tells_attributes {as : List ClassFile.Attribute} {xs : List Attribute}
    (each : List.Forall₂ (AttributeTells p) as xs) (few : xs.length < 2 ^ 16)
    (countable : ∀ x ∈ xs, x.isCountable = true) (short : AllShort as) :
    Tells p (fun cs => Reader.counted 2 (readAttribute cs)) (encodeAttributes as) xs :=
  .counted_map each few fun a ha x hx tells => tells (countable x hx) (short a ha)

/-! ## Members -/

/-- The lists in the attributes of a member can be counted. -/
def Member.isCountable (m : Member) : Bool := m.attributes.all Attribute.isCountable

/-- The form is read as the member. -/
def MemberTells (p : ConstantPool) (form : ClassFile.Member) (x : Member) : Prop :=
  x.isCountable = true → AllShort form.attributes → Tells p readMember form.encode x

namespace MemberTells

/-- What a member says stays so when a pool grows. -/
theorem persistent (form : ClassFile.Member) (x : Member) :
    Persistent fun p => MemberTells p form x :=
  fun p q grown tells countable short => Tells.persistent _ _ _ p q grown (tells countable short)

/-- A member is said by its flags, the slots of its name and descriptor, and its attributes.
-/
theorem of_attributes {form : ClassFile.Member} {x : Member}
    (flags : form.flags.toNat = x.flags ∧ x.flags < 2 ^ 16) (name : p.Holds form.name (.utf8 x.name))
    (descriptor : p.Holds form.descriptor (.utf8 x.descriptor))
    (each : List.Forall₂ (AttributeTells p) form.attributes x.attributes)
    (few : x.attributes.length < 2 ^ 16) : MemberTells p form x := by
  intro countable short
  have attributes := tells_attributes each few (List.all_eq_true.mp countable) short
  rw [ClassFile.Member.encode, flags.1]
  simp only [List.append_assoc]
  exact (Tells.const (Spells.number (k := 2) flags.2)).bind
    ((Tells.text name).bind ((Tells.text descriptor).bind (attributes.map _)))

end MemberTells

/-- Members are said one by one, behind their number. -/
theorem tells_members {forms : List ClassFile.Member} {xs : List Member}
    (each : List.Forall₂ (MemberTells p) forms xs) (few : xs.length < 2 ^ 16)
    (countable : ∀ x ∈ xs, x.isCountable = true)
    (short : ∀ form ∈ forms, AllShort form.attributes) :
    Tells p (fun cs => Reader.counted 2 (readMember cs))
      (countedItems 2 (forms.map ClassFile.Member.encode)) xs :=
  .counted_map each few fun form hf x hx tells => tells (countable x hx) (short form hf)

/-! ## Classes -/

/-- The lists in a class can be counted. -/
structure Class.Countable (k : Class) : Prop where
  interfaces : k.interfaces.length < 2 ^ 16
  fields : k.fields.length < 2 ^ 16 ∧ ∀ x ∈ k.fields, x.isCountable = true
  methods : k.methods.length < 2 ^ 16 ∧ ∀ x ∈ k.methods, x.isCountable = true
  attributes : k.attributes.length < 2 ^ 16 ∧ ∀ x ∈ k.attributes, x.isCountable = true

/-- The attributes of a class and of its members. -/
def allAttributes (parts : Parts) : List ClassFile.Attribute :=
  (parts.fields ++ parts.methods).flatMap ClassFile.Member.attributes ++ parts.attributes

/-- The parts are those of the class. -/
structure ClassTells (p : ConstantPool) (parts : Parts) (k : Class) : Prop where
  flags : parts.flags.toNat = k.flags ∧ k.flags < 2 ^ 16
  name : p.HoldsClass parts.thisClass k.name
  superclass : Option.Rel p.HoldsClass parts.superClass k.superclass
  interfaces : List.Forall₂ p.HoldsClass parts.interfaces k.interfaces
  fields : List.Forall₂ (MemberTells p) parts.fields k.fields
  methods : List.Forall₂ (MemberTells p) parts.methods k.methods
  attributes : List.Forall₂ (AttributeTells p) parts.attributes k.attributes

/-- The constants of a well-formed pool refer to texts. -/
theorem all_refersToText (wf : WellFormed p) :
    p.constants.toList.all (refersToText p.constants.toList) = true := by
  refine List.all_eq_true.mpr fun c mem => ?_
  have resolved := wf.resolved c mem
  cases c with
  | classRef n | stringRef n =>
    obtain ⟨s, holds⟩ := resolved
    rw [refersToText, Grammar.text?_eq holds, Option.isSome_some]
  | _ => rfl

/-- A class file is read, to its end, as the class that its parts are of. -/
theorem read_encode {version : Version} {parts : Parts} {k : Class} (wf : WellFormed p)
    (texts : ∀ c ∈ p.constants.toList, Grammar.Short c) (tells : ClassTells p parts k)
    (versioned : k.minor = 0 ∧ k.major = version.major.toNat) (countable : k.Countable)
    (short : AllShort (allAttributes parts)) : read (encode version p parts) = some k := by
  have constants := Grammar.spells_constants fun c mem =>
    Grammar.spells_constant wf (wf.resolved c mem) (texts c mem)
  have next : p.next - 1 = slotsOf p.constants.toList := by rw [wf.next]; omega
  have room : p.next < 256 ^ 2 := Nat.lt_of_le_of_lt wf.room (by decide)
  have accepted {condition : Prop} [Decidable condition] (holds : condition) :
      Spells (guard condition) [] () := by
    rw [guard, if_pos holds]
    exact Spells.pure ()
  have here {α : Type} {d : List Constant → Reader α} {bytes : List UInt8} {a : α}
      (tells : Tells p d bytes a) : Spells (d p.constants.toList) bytes a := tells p (.refl p) wf
  have interfaces : Tells p (fun cs => Reader.counted 2 (readSlot (className? cs)))
      (countedItems 2 (parts.interfaces.map (be 2))) k.interfaces :=
    .counted_map tells.interfaces countable.interfaces fun _ _ _ _ holds => Tells.className holds
  have members (form : ClassFile.Member) (mem : form ∈ parts.fields ++ parts.methods) :
      AllShort form.attributes := fun a ha =>
    short a (List.mem_append_left _ (List.mem_flatMap.mpr ⟨form, mem, ha⟩))
  have fields := tells_members tells.fields countable.fields.1 countable.fields.2
    fun form mem => members form (List.mem_append_left _ mem)
  have methods := tells_members tells.methods countable.methods.1 countable.methods.2
    fun form mem => members form (List.mem_append_right _ mem)
  have attributes := tells_attributes tells.attributes countable.attributes.1
    countable.attributes.2 fun a ha => short a (List.mem_append_right _ ha)
  refine Spells.whole ?_
  simp only [encode, Version.encode, ConstantPool.encode, List.append_assoc]
  refine (Spells.bytes magic).bind ?_
  rw [← List.nil_append (be 2 0 ++ _)]
  refine (accepted rfl).bind ((Spells.number (k := 2) (by decide)).bind ?_)
  refine (Spells.number (k := 2) version.major.toNat_lt).bind ((Spells.number (k := 2) room).bind ?_)
  rw [next, tells.flags.1]
  refine constants.bind ?_
  rw [← List.nil_append (be 2 k.flags ++ _)]
  refine (accepted (all_refersToText wf)).bind ((Spells.number (k := 2) tells.flags.2).bind ?_)
  refine (here (Tells.className tells.name)).bind
    ((Grammar.spells_superclass wf tells.superclass).bind ((here interfaces).bind
    ((here fields).bind ((here methods).bind ?_))))
  rw [← versioned.1, ← versioned.2]
  exact (here attributes).map _

end StubJar.ClassFile.Resolved
