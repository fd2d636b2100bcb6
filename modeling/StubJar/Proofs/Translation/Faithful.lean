import StubJar.Proofs.ClassFile.Counts
import StubJar.Proofs.Translation.Archives
import StubJar.Proofs.Translation.SystemAnnotations

/-!
# Faithful class files

Reading a translated class file to its end, with every attribute taken apart and every
slot looked up, gives what the class says and nothing else, where all that it counts fits
(`classEntry_faithful`). Translation does not ask for that: a class with a list that is too
long is translated, and its class file says something else (`read_iff_listsFit`).
-/

namespace StubJar.Translation

open StubJar.Dalvik StubJar.ClassFile StubJar.ClassFile.ConstantPool

/-! ## Initial values -/

/-- The type of the fields that a value can be the constant of. -/
def constantType? : Value → Option String
  | .int _ => some "I"
  | .short _ => some "S"
  | .char _ => some "C"
  | .byte _ => some "B"
  | .boolean _ => some "Z"
  | .long _ => some "J"
  | .float _ => some "F"
  | .double _ => some "D"
  | .string _ => some "Ljava/lang/String;"
  | _ => none

/-- A value as a constant; the small integers have the value they stand for. -/
def literalOf? : Value → Option Resolved.Literal
  | .int v => some (.int v)
  | .short v => some (.int v.toInt32)
  | .char u => some (.int (Int32.ofNat u.toNat))
  | .byte v => some (.int v.toInt32)
  | .boolean b => some (.int (if b then 1 else 0))
  | .long v => some (.long v)
  | .float bits => some (.float bits)
  | .double bits => some (.double bits)
  | .string s => some (.string s)
  | _ => none

/-- The constant for an initial value of the kind that the type of the field calls for. -/
def literalFor? (type : Descriptor) (v : Value) : Option Resolved.Literal :=
  if constantType? v = some type.text then literalOf? v else none

/-- An `int` that is put into the pool is the constant of that value. -/
theorem int_gives {v : Int} {w : Int32} (same : Int32.ofInt v = w) :
    Gives (PoolM.integer v) fun n p => (Resolved.Literal.int w).Stands p n :=
  same ▸ integer_gives v

/-- The field has a constant if and only if the value is of the kind that is called
for. -/
theorem fieldConstant_related (type : Descriptor) (w : Value) :
    Option.Rel (fun x (l : Resolved.Literal) => Gives x fun n p => l.Stands p n)
      (fieldConstant? type w) (literalFor? type w) := by
  unfold fieldConstant? literalFor?
  split
  case h_1 v same =>
    rw [if_pos (by rw [constantType?, same])]
    exact .some (int_gives (Int32.ofInt_toInt v))
  case h_2 v same =>
    rw [if_pos (by rw [constantType?, same])]
    exact .some (int_gives (Int32.ofInt_int16ToInt v))
  case h_3 u same =>
    rw [if_pos (by rw [constantType?, same])]
    exact .some (int_gives Int32.ofInt_eq_ofNat)
  case h_4 v same =>
    rw [if_pos (by rw [constantType?, same])]
    exact .some (int_gives (Int32.ofInt_int8ToInt v))
  case h_5 b same =>
    rw [if_pos (by rw [constantType?, same])]
    exact .some (int_gives (by cases b <;> rfl))
  case h_6 v same =>
    rw [if_pos (by rw [constantType?, same])]
    exact .some (slot_gives (.long v) fun _ => trivial)
  case h_7 bits same =>
    rw [if_pos (by rw [constantType?, same])]
    exact .some (slot_gives (.float bits) fun _ => trivial)
  case h_8 bits same =>
    rw [if_pos (by rw [constantType?, same])]
    exact .some (slot_gives (.double bits) fun _ => trivial)
  case h_9 s same =>
    rw [if_pos (by rw [constantType?, same])]
    exact .some (Gives.of_meets (PoolM.stringRef_spec s))
  case h_10 w _ _ int short char byte boolean long float double string =>
    rw [if_neg]
    · exact .none
    · intro called
      cases w with
      | int v => exact int v (Option.some.inj called).symm rfl
      | short v => exact short v (Option.some.inj called).symm rfl
      | char v => exact char v (Option.some.inj called).symm rfl
      | byte v => exact byte v (Option.some.inj called).symm rfl
      | boolean v => exact boolean v (Option.some.inj called).symm rfl
      | long v => exact long v (Option.some.inj called).symm rfl
      | float v => exact float v (Option.some.inj called).symm rfl
      | double v => exact double v (Option.some.inj called).symm rfl
      | string v => exact string v (Option.some.inj called).symm rfl
      | _ => cases called

/-! ## Fields -/

/-- The constant of a field, which only a static and final field has. -/
def constantContents (f : Field) : List Resolved.Attribute :=
  ((if f.isStatic && f.isFinal then f.initial else none).bind (literalFor? f.ref.type)).toList.map
    .constantValue

/-- The annotations for the program and those for tools, each in an attribute of their own. -/
def shownContents (annotations : List Dalvik.Annotation) : List Resolved.Attribute :=
  annotationContentsIf true annotations ++ annotationContentsIf false annotations

/-- The member of a class file says what the field says. -/
structure IsField (f : Field) (k : Resolved.Member) : Prop where
  flags : k.flags = (flagsOfField f.flags).toNat
  name : k.name = f.ref.name
  descriptor : k.descriptor = f.ref.type.text
  attributes : ∃ signature, IsSignatureOf f.annotations signature
    ∧ k.attributes = constantContents f ++ (signature ++ shownContents f.annotations)

/-- A field in a class file. -/
def fieldContents (f : Field) : Resolved.Member :=
  ⟨(flagsOfField f.flags).toNat, f.ref.name, f.ref.type.text,
    constantContents f ++ commonContents f.annotations⟩

/-- There is one such member. -/
theorem isField_iff {f : Field} {k : Resolved.Member} : IsField f k ↔ fieldContents f = k := by
  constructor
  · obtain ⟨flags, name, descriptor, attributes⟩ := k
    rintro ⟨⟨⟩, ⟨⟩, ⟨⟩, signature, signed, ⟨⟩⟩
    rw [isSignatureOf_iff.mp signed]
    rfl
  · rintro rfl
    exact ⟨rfl, rfl, rfl, _, isSignatureOf_iff.mpr rfl, rfl⟩

/-- What may be missing makes at most one attribute. -/
theorem length_toList_map_le {α β : Type} (a? : Option α) (f : α → β) :
    (a?.toList.map f).length ≤ 1 := by
  cases a? with
  | none => exact Nat.zero_le 1
  | some a => exact Nat.le_refl 1

/-- So does what depends on a condition. -/
theorem length_if_le {α : Type} (condition : Bool) (a : α) :
    (if condition then [a] else []).length ≤ 1 := by
  cases condition with
  | false => exact Nat.zero_le 1
  | true => exact Nat.le_refl 1

/-- What all kinds of items have makes up to three. -/
theorem length_commonContents_le (annotations : List Dalvik.Annotation) :
    (commonContents annotations).length ≤ 3 := by
  have signature := length_toList_map_le (signature? annotations) Resolved.Attribute.signature
  have visible : (annotationContentsIf true annotations).length ≤ 1 := length_if_le _ _
  have invisible : (annotationContentsIf false annotations).length ≤ 1 := length_if_le _ _
  unfold commonContents signatureContents
  rw [List.length_append, List.length_append]
  omega

/-- A constant field gives the attribute of its value. -/
theorem constantAttributes_gives (f : Field) :
    GivesAttributes (constantAttributes f) (constantContents f) := by
  unfold constantAttributes constantContents
  cases (if f.isStatic && f.isFinal then f.initial else none) with
  | none => exact .nothing
  | some v =>
    have related := fieldConstant_related f.ref.type v
    simp only [Option.bind_some]
    generalize fieldConstant? f.ref.type v = x?, literalFor? f.ref.type v = l? at related ⊢
    cases related with
    | none => exact .nothing
    | some gives => exact .of_slot gives fun _ _ stands => .constantValue stands

/-- A field gives a form that says what it says. -/
theorem fieldForm_gives (f : Field) :
    Gives (fieldForm f) fun x p => Resolved.MemberTells p x (fieldContents f) := by
  have few : (fieldContents f).attributes.length < 2 ^ 16 := by
    have constant : (constantContents f).length ≤ 1 := length_toList_map_le _ _
    have common := length_commonContents_le f.annotations
    show (constantContents f ++ commonContents f.annotations).length < 2 ^ 16
    rw [List.length_append]
    omega
  refine Meets.bind (utf8_gives f.ref.name) fun name => ?_
  refine Meets.step (.holds name _) (utf8_gives f.ref.type.text) fun descriptor => ?_
  refine Meets.step (.and (.holds descriptor _) (.holds name _)) (constantAttributes_gives f)
    fun constant => ?_
  refine Meets.step (.and (GivesAttributes.persistent constant _)
    (.and (.holds descriptor _) (.holds name _))) (commonAttributes_gives f.annotations)
    fun common => Meets.pure fun p ⟨second, first, type, named⟩ => ?_
  exact .of_attributes ⟨rfl, flagsOfField_narrow _⟩ named type (List.rel_append first second) few

/-! ## Code -/

/-- A number that is pushed without the pool is loaded. -/
theorem pushInt?_loads {v : Int} {i : ClassFile.Instruction}
    (h : ClassFile.Instruction.pushInt? v = some i) (p : ConstantPool) : Resolved.Loads p i := by
  unfold ClassFile.Instruction.pushInt? at h
  split at h
  · cases h
    trivial
  · split at h
    · cases h
      trivial
    · split at h
      · cases h
        trivial
      · cases h

theorem intPush_gives (v : Int32) : Gives (intPush v) fun i p => Resolved.Loads p i := by
  unfold intPush
  cases short : ClassFile.Instruction.pushInt? v.toInt with
  | some i => exact Gives.pure fun p => pushInt?_loads short p
  | none =>
    exact (slot_gives (.integer v) fun _ => trivial).map fun _ _ holds => ⟨.int v, holds, rfl⟩

theorem floatPush_gives (bits : UInt32) : Gives (floatPush bits) fun i p => Resolved.Loads p i := by
  unfold floatPush
  split
  · exact Gives.pure fun _ => trivial
  split
  · exact Gives.pure fun _ => trivial
  split
  · exact Gives.pure fun _ => trivial
  · exact (slot_gives (.float bits) fun _ => trivial).map fun _ _ holds => ⟨.float bits, holds, rfl⟩

theorem longPush_gives (v : Int64) : Gives (longPush v) fun i p => Resolved.Loads p i := by
  unfold longPush
  split
  · exact Gives.pure fun _ => trivial
  split
  · exact Gives.pure fun _ => trivial
  · exact (slot_gives (.long v) fun _ => trivial).map fun _ _ holds => ⟨.long v, holds, rfl⟩

theorem doublePush_gives (bits : UInt64) :
    Gives (doublePush bits) fun i p => Resolved.Loads p i := by
  unfold doublePush
  split
  · exact Gives.pure fun _ => trivial
  split
  · exact Gives.pure fun _ => trivial
  · exact (slot_gives (.double bits) fun _ => trivial).map fun _ _ holds =>
      ⟨.double bits, holds, rfl⟩

/-- Every instruction loads what it can. -/
def AllLoad (code : List ClassFile.Instruction) (p : ConstantPool) : Prop :=
  ∀ i ∈ code, Resolved.Loads p i

/-- A load in front of a return is code that loads and returns. -/
theorem AllLoad.return {i : ClassFile.Instruction} {kind : ReturnKind} {p : ConstantPool}
    (loads : Resolved.Loads p i) : AllLoad [i, .ret kind] p := by
  intro j mem
  rcases List.mem_cons.mp mem with rfl | mem
  · exact loads
  · obtain rfl := List.mem_singleton.mp mem
    trivial

theorem narrowAt_gives (m : Method) (rs : Registers) (r : Register) :
    Gives (narrowAt m rs r) fun _ _ => True := by
  unfold narrowAt
  split
  · exact Gives.pure fun _ => trivial
  · exact Gives.throw

theorem wideAt_gives (m : Method) (rs : Registers) (r : Register) :
    Gives (wideAt m rs r) fun _ _ => True := by
  unfold wideAt
  split
  · exact Gives.pure fun _ => trivial
  · exact Gives.throw

/-- A push and a return, of what a register holds. -/
theorem pushReturn_gives {α : Type} {x : Translator α} {push : α → PoolM ClassFile.Fault ClassFile.Instruction}
    {kind : ReturnKind} (first : Gives x fun _ _ => True)
    (second : ∀ a, Gives (push a) fun i p => Resolved.Loads p i) :
    Gives (do return [← push (← x), .ret kind] : Translator _) AllLoad :=
  Meets.bind first fun a => (Gives.mapFault _ (second a)).map fun _ _ loads => AllLoad.return loads

/-- The code of a return loads a value and returns it. -/
theorem returnCode_gives (m : Method) (rs : Registers) (i : Dalvik.Instruction) :
    Gives (returnCode m rs i) AllLoad := by
  unfold returnCode
  dsimp only
  split
  case h_1 =>
    refine Gives.pure fun _ i mem => ?_
    obtain rfl := List.mem_singleton.mp mem
    trivial
  case h_2 r _ => exact pushReturn_gives (narrowAt_gives m rs r) fun v => floatPush_gives v.toUInt32
  case h_3 r _ => exact pushReturn_gives (wideAt_gives m rs r) longPush_gives
  case h_4 r _ => exact pushReturn_gives (wideAt_gives m rs r) fun v => doublePush_gives v.toUInt64
  case h_5 r _ =>
    refine Meets.bind (narrowAt_gives m rs r) fun v => ?_
    split
    · exact Gives.pure fun _ => AllLoad.return trivial
    · exact Gives.throw
  case h_6 r letter _ _ =>
    split
    · exact pushReturn_gives (narrowAt_gives m rs r) intPush_gives
    · exact Gives.throw
  case h_7 => exact Gives.throw

/-- So does the code of a body. -/
theorem codeFrom_gives (m : Method) (rs : Registers) (is : List Dalvik.Instruction) :
    Gives (codeFrom m rs is) AllLoad := by
  induction is generalizing rs with
  | nil =>
    unfold codeFrom
    exact Gives.throw
  | cons i is ih =>
    have last : Gives (returnCode m rs i >>= fun code =>
        if is.isEmpty then return code else throw (.unreachableInstructions m.ref.render)) AllLoad := by
      refine Meets.bind (returnCode_gives m rs i) fun code => ?_
      split
      · exact Meets.pure fun _ => id
      · exact Meets.throw trivial
    unfold codeFrom
    cases i with
    | const4 r v | const16 r v | constWide16 r v => exact ih _
    | _ => exact last

/-- So does the code of a method, with its arguments as locals. -/
theorem codeOf_gives (m : Method) : Gives (codeOf m) fun c p =>
    ∃ is, AllLoad is p ∧ c.code = is.flatMap ClassFile.Instruction.encode
      ∧ c.code.length < 2 ^ 32 ∧ c.attributes = [] ∧ c.maxLocals = m.ins := by
  unfold codeOf
  split
  · exact Gives.throw
  split
  · exact Gives.throw
  refine Meets.bind (codeFrom_gives m _ _) fun code => ?_
  cases encoded : encodeCode code with
  | error fault => exact Meets.throw trivial
  | ok bytes =>
    obtain ⟨short, rfl⟩ := ClassFile.Instruction.encodeCode_eq_ok.mp encoded
    exact Meets.pure fun p loads => ⟨code, loads, rfl, by dsimp only; omega, rfl, rfl⟩

/-! ## Methods -/

/-- The attributes are a code attribute where the method needs one, and none otherwise. -/
def IsCodeOf (m : Method) (xs : List Resolved.Attribute) : Prop :=
  if m.flags.isBodiless then xs = []
  else ∃ c : Resolved.Code, xs = [.code c] ∧ c.maxLocals = m.ins % 2 ^ 16 ∧ c.handlers = []
    ∧ c.attributes = []

/-- The attributes of a method in a class file, its code apart. -/
def methodContents (m : Method) : List Resolved.Attribute :=
  exceptionContents m.annotations ++ commonContents m.annotations
    ++ parameterContents m.parameterAnnotations

/-- The member of a class file says what the method says. -/
structure IsMethod (m : Method) (k : Resolved.Member) : Prop where
  flags : k.flags = (flagsOfMethod m.flags).toNat
  name : k.name = m.ref.name
  descriptor : k.descriptor = m.ref.prototype.render
  attributes : ∃ code exceptions signature, IsCodeOf m code ∧ AreThrownOf m.annotations exceptions
    ∧ IsSignatureOf m.annotations signature
    ∧ k.attributes = code ++ (exceptions ++ (signature ++ shownContents m.annotations)
      ++ parameterContents m.parameterAnnotations)

/-- The attributes of a method are its code and what its annotations call for. -/
theorem IsMethod.exists_code {m : Method} {k : Resolved.Member} (h : IsMethod m k) :
    ∃ code, IsCodeOf m code ∧ k.attributes = code ++ methodContents m := by
  obtain ⟨code, exceptions, signature, isCode, thrown, signed, attributes⟩ := h.attributes
  rw [areThrownOf_iff.mp thrown, isSignatureOf_iff.mp signed] at attributes
  exact ⟨code, isCode, attributes⟩

/-- A method has at most one body. -/
theorem length_code_le {m : Method} {xs : List Resolved.Attribute} (h : IsCodeOf m xs) :
    xs.length ≤ 1 := by
  unfold IsCodeOf at h
  split at h
  · rw [h]
    exact Nat.zero_le 1
  · obtain ⟨c, rfl, _⟩ := h
    exact Nat.le_refl 1

/-- A method has up to six attributes besides. -/
theorem length_methodContents_le (m : Method) : (methodContents m).length ≤ 6 := by
  have exceptions : (exceptionContents m.annotations).length ≤ 1 := length_if_le _ _
  have common := length_commonContents_le m.annotations
  have visible : (parameterContentsIf true m.parameterAnnotations).length ≤ 1 := length_if_le _ _
  have invisible : (parameterContentsIf false m.parameterAnnotations).length ≤ 1 := length_if_le _ _
  unfold methodContents parameterContents
  simp only [List.length_append]
  omega

/-- The attributes are read as the code of the method. -/
def CodeTells (m : Method) (as : List Attribute) (p : ConstantPool) : Prop :=
  ∃ xs, IsCodeOf m xs ∧ List.Forall₂ (Resolved.AttributeTells p) as xs

/-- What code says stays so when a pool grows. -/
theorem CodeTells.persistent (m : Method) (as : List Attribute) : Persistent (CodeTells m as) :=
  fun p q grown found => found.imp fun xs ⟨code, each⟩ =>
    ⟨code, GivesAttributes.persistent as xs p q grown each⟩

/-- A method gives its code, if it has any. -/
theorem codeAttributes_gives (m : Method) : Gives (codeAttributes m) (CodeTells m) := by
  unfold codeAttributes
  by_cases bodiless : m.flags.isBodiless = true
  · rw [if_pos bodiless]
    exact Gives.pure fun _ => ⟨[], by unfold IsCodeOf; rw [if_pos bodiless], .nil⟩
  · rw [if_neg bodiless]
    refine Meets.bind (codeOf_gives m) fun code => ?_
    intro p wf ⟨is, loads, form, short, bare, maxLocals⟩
    obtain ⟨c, same, handlers, attributes, tells⟩ := Resolved.exists_code loads form short bare
    have isCode : IsCodeOf m [.code c] := by
      unfold IsCodeOf
      rw [if_neg bodiless]
      exact ⟨c, rfl, maxLocals ▸ same, handlers, attributes⟩
    have made : Gives (Attribute.of (.code code)) _ := Gives.of_meets (Attribute.of_spec _)
    refine Meets.step (Resolved.Tells.persistent Resolved.readCode code.encode c)
      (Gives.mapFault Fault.classFile made) (fun a => ?_) p wf tells
    refine Meets.pure fun q ⟨⟨named, info⟩, tells⟩ => ⟨_, isCode, ?_⟩
    exact .cons (.of_content named info (.code tells)) .nil

/-- What a method throws gives its attribute. -/
theorem exceptionAttributes_gives (m : Method) :
    GivesAttributes (exceptionAttributes m) (exceptionContents m.annotations) := by
  unfold exceptionAttributes exceptionContents
  dsimp only
  by_cases none : (thrown m.annotations).isEmpty = true
  · rw [if_pos none, none]
    exact .nothing
  · have some : (!(thrown m.annotations).isEmpty) = true := by
      rw [eq_false_of_ne_true none, Bool.not_false]
    rw [if_neg none, if_pos some]
    have classes : Gives ((thrown m.annotations).mapM PoolM.classRef) fun ns p =>
        List.Forall₂ (fun name n => p.HoldsClass n name) (thrown m.annotations) ns :=
      Meets.mapM (fun name n => HoldsClass.persistent n name)
        fun name _ => Gives.of_meets (PoolM.classRef_spec name)
    exact Meets.bind classes fun ns => GivesAttributes.one fun p each => .exceptions each.flip

/-- The form is read as a member that says what the method says. -/
def MethodTells (m : Method) (x : Member) (p : ConstantPool) : Prop :=
  ∃ k, IsMethod m k ∧ Resolved.MemberTells p x k

/-- What a method says stays so when a pool grows. -/
theorem MethodTells.persistent (m : Method) (x : Member) : Persistent (MethodTells m x) :=
  fun p q grown found => found.imp fun k ⟨same, tells⟩ =>
    ⟨same, Resolved.MemberTells.persistent x k p q grown tells⟩

/-- A method gives a form that says what it says. -/
theorem methodForm_gives (m : Method) : Gives (methodForm m) (MethodTells m) := by
  have named (n k : Nat) : Persistent fun p =>
      p.Holds k (.utf8 m.ref.prototype.render) ∧ p.Holds n (.utf8 m.ref.name) :=
    .and (.holds k _) (.holds n _)
  have coded (n k : Nat) (code : List Attribute) := (CodeTells.persistent m code).and (named n k)
  have thrown (n k : Nat) (code exceptions : List Attribute) :=
    (GivesAttributes.persistent exceptions (exceptionContents m.annotations)).and (coded n k code)
  have common (n k : Nat) (code exceptions common : List Attribute) :=
    (GivesAttributes.persistent common (commonContents m.annotations)).and
      (thrown n k code exceptions)
  refine Meets.bind (Gives.mapFault _ (utf8_gives m.ref.name)) fun n => ?_
  refine Meets.step (.holds n _) (Gives.mapFault _ (utf8_gives m.ref.prototype.render)) fun k => ?_
  refine Meets.step (named n k) (codeAttributes_gives m) fun code => ?_
  refine Meets.step (coded n k code) (Gives.mapFault _ (exceptionAttributes_gives m))
    fun exceptions => ?_
  refine Meets.step (thrown n k code exceptions)
    (Gives.mapFault _ (commonAttributes_gives m.annotations)) fun shared => ?_
  refine Meets.step (common n k code exceptions shared)
    (Gives.mapFault _ (parameterAttributes_gives m.parameterAnnotations)) fun parameters => ?_
  refine Meets.pure fun p ⟨fourth, third, second, ⟨xs, isCode, first⟩, descriptor, name⟩ => ?_
  refine ⟨⟨_, _, _, xs ++ methodContents m⟩, ⟨rfl, rfl, rfl, xs, _, _, isCode,
    areThrownOf_iff.mpr rfl, isSignatureOf_iff.mpr rfl, rfl⟩, ?_⟩
  refine .of_attributes ⟨rfl, flagsOfMethod_narrow _⟩ name descriptor ?_ ?_
  · have each := List.rel_append first (List.rel_append (List.rel_append second third) fourth)
    simpa only [methodContents, List.append_assoc] using each
  · have one := length_code_le isCode
    have six := length_methodContents_le m
    show (xs ++ methodContents m).length < 2 ^ 16
    rw [List.length_append]
    omega

/-! ## Classes -/

/-- The source file in a class file. -/
def sourceContents (c : ClassDecl) : List Resolved.Attribute := c.sourceFile.toList.map .sourceFile

/-- The attributes of a class in a class file. -/
def classContents (c : ClassDecl) : List Resolved.Attribute :=
  sourceContents c ++ commonContents c.annotations

/-- The class file says what the class says, and nothing else. -/
structure IsClass (version : Version) (c : ClassDecl) (k : Resolved.Class) : Prop where
  version : k.minor = 0 ∧ k.major = version.major.toNat
  flags : k.flags = (flagsOfClass c.flags).toNat
  name : c.type.className? = some k.name
  superclass : k.superclass = c.superclass.map parentOutline
  interfaces : k.interfaces = c.interfaces.map parentOutline
  fields : List.Forall₂ IsField c.fields k.fields
  methods : List.Forall₂ IsMethod c.methods k.methods
  attributes : ∃ signature, IsSignatureOf c.annotations signature
    ∧ k.attributes = sourceContents c ++ (signature ++ shownContents c.annotations)

/-- A class file can count the items of each list of the class: those of the class itself
and those in its attributes and in the attributes of its members. -/
structure ListsFit (c : ClassDecl) : Prop where
  interfaces : c.interfaces.length < 2 ^ 16
  fields : c.fields.length < 2 ^ 16
  methods : c.methods.length < 2 ^ 16
  ofFields : ∀ f ∈ c.fields, ∀ a ∈ (fieldContents f).attributes, a.isCountable = true
  ofMethods : ∀ m ∈ c.methods, ∀ a ∈ methodContents m, a.isCountable = true
  ofClass : ∀ a ∈ classContents c, a.isCountable = true

/-- The attributes that the class file of a class holds. -/
def attributesOf (c : ClassDecl) : List ClassFile.Attribute :=
  match c.type.className? with
  | none => []
  | some name =>
    match (partsOf name c ConstantPool.empty).1 with
    | .ok parts => Resolved.allAttributes parts
    | .error _ => []

/-- What the class file of a class holds can be counted: the bytes of each text and of each
attribute, and the items of each list. -/
structure Fits (c : ClassDecl) : Prop extends ListsFit c where
  texts : ∀ s ∈ textsOf c, (Text.ModifiedUtf8.encode s).length < 2 ^ 16
  attributes : Resolved.AllShort (attributesOf c)

/-- The code of a method has no lists to count. -/
theorem IsMethod.isCountable_iff {m : Method} {k : Resolved.Member} (h : IsMethod m k) :
    k.isCountable = true ↔ ∀ a ∈ methodContents m, a.isCountable = true := by
  obtain ⟨code, isCode, attributes⟩ := h.exists_code
  have coded : ∀ a ∈ code, a.isCountable = true := by
    intro a mem
    unfold IsCodeOf at isCode
    split at isCode
    · rw [isCode] at mem
      cases mem
    · obtain ⟨c, rfl, _⟩ := isCode
      obtain rfl := List.mem_singleton.mp mem
      rfl
  unfold Resolved.Member.isCountable
  rw [attributes, List.all_append, Bool.and_eq_true, List.all_eq_true, List.all_eq_true]
  exact ⟨And.right, And.intro coded⟩

/-- The fields of the class file are those of the class. -/
theorem IsClass.fields_eq {version : Version} {c : ClassDecl} {k : Resolved.Class}
    (h : IsClass version c k) : k.fields = c.fields.map fieldContents := by
  have each := h.fields.imp fun _ _ => isField_iff.mp
  rw [← List.forall₂_map_left_iff, List.forall₂_eq_eq_eq] at each
  exact each.symm

/-- The attributes of the class file are those of the class. -/
theorem IsClass.attributes_eq {version : Version} {c : ClassDecl} {k : Resolved.Class}
    (h : IsClass version c k) : k.attributes = classContents c := by
  obtain ⟨signature, signed, attributes⟩ := h.attributes
  rw [attributes, isSignatureOf_iff.mp signed]
  rfl

/-- The class that a class file says can be counted just where the lists of the class can
be. -/
theorem IsClass.countable_iff {version : Version} {c : ClassDecl} {k : Resolved.Class}
    (h : IsClass version c k) : k.Countable ↔ ListsFit c := by
  have interfaces : k.interfaces.length = c.interfaces.length := by
    rw [h.interfaces, List.length_map]
  have fields : k.fields.length = c.fields.length := h.fields.length_eq.symm
  have methods : k.methods.length = c.methods.length := h.methods.length_eq.symm
  have attributes : k.attributes.length < 2 ^ 16 := by
    have source : (sourceContents c).length ≤ 1 := length_toList_map_le _ _
    have common := length_commonContents_le c.annotations
    rw [h.attributes_eq, classContents, List.length_append]
    omega
  have ofFields : (∀ x ∈ k.fields, x.isCountable = true)
      ↔ ∀ f ∈ c.fields, ∀ a ∈ (fieldContents f).attributes, a.isCountable = true := by
    rw [h.fields_eq, List.forall_mem_map]
    exact forall₂_congr fun f _ => List.all_eq_true
  have ofMethods : (∀ x ∈ k.methods, x.isCountable = true)
      ↔ ∀ m ∈ c.methods, ∀ a ∈ methodContents m, a.isCountable = true := by
    constructor
    · intro countable m hm
      obtain ⟨x, hx, isMethod⟩ := exists_of_mem_right h.methods.flip hm
      exact isMethod.isCountable_iff.mp (countable x hx)
    · intro countable x hx
      obtain ⟨m, hm, isMethod⟩ := exists_of_mem_right h.methods hx
      exact isMethod.isCountable_iff.mpr (countable m hm)
  constructor
  · rintro ⟨few, own, their, _, ofClass⟩
    exact ⟨interfaces ▸ few, fields ▸ own.1, methods ▸ their.1, ofFields.mp own.2,
      ofMethods.mp their.2, h.attributes_eq ▸ ofClass⟩
  · intro fits
    exact ⟨interfaces ▸ fits.interfaces, ⟨fields ▸ fits.fields, ofFields.mpr fits.ofFields⟩,
      ⟨methods ▸ fits.methods, ofMethods.mpr fits.ofMethods⟩, attributes,
      h.attributes_eq ▸ fits.ofClass⟩

/-- The file of a class gives its attribute. -/
theorem sourceAttributes_gives (c : ClassDecl) :
    GivesAttributes (sourceAttributes c) (sourceContents c) := by
  unfold sourceAttributes sourceContents
  cases c.sourceFile with
  | none => exact .nothing
  | some file => exact .of_slot (utf8_gives file) fun _ _ holds => .sourceFile holds

/-- The parts are read as a class that says what the class says. -/
def PartsTell (version : Version) (c : ClassDecl) (name : String) (parts : Parts) (p : ConstantPool) :
    Prop :=
  ∃ methods, List.Forall₂ IsMethod c.methods methods
    ∧ Resolved.ClassTells p parts ⟨0, version.major.toNat, (flagsOfClass c.flags).toNat, name,
      c.superclass.map parentOutline, c.interfaces.map parentOutline, c.fields.map fieldContents,
      methods, classContents c⟩

/-- A class gives parts that say what it says. -/
theorem partsOf_gives (version : Version) (name : String) (c : ClassDecl) :
    Gives (partsOf name c) (PartsTell version c name) := by
  have interfaces : Gives (c.interfaces.mapM parentSlot) fun ns p =>
      List.Forall₂ (fun d n => p.HoldsClass n (parentOutline d)) c.interfaces ns :=
    Meets.mapM (fun d n => HoldsClass.persistent n (parentOutline d))
      fun d _ => Gives.of_meets (parentSlot_meets d)
  have fields : Gives (c.fields.mapM fun f => (fieldForm f : Translator Member)) fun xs p =>
      List.Forall₂ (fun f x => Resolved.MemberTells p x (fieldContents f)) c.fields xs :=
    Meets.mapM (fun f x => Resolved.MemberTells.persistent x (fieldContents f))
      fun f _ => Gives.mapFault _ (fieldForm_gives f)
  have methods : Gives (c.methods.mapM methodForm) fun xs p =>
      List.Forall₂ (fun m x => MethodTells m x p) c.methods xs :=
    Meets.mapM MethodTells.persistent fun m _ => methodForm_gives m
  have one (n : Nat) := HoldsClass.persistent n name
  have two (n : Nat) (n? : Option Nat) :=
    (relClass_persistent n? (c.superclass.map parentOutline)).and (one n)
  have three (n : Nat) (n? : Option Nat) (ns : List Nat) :=
    (Persistent.forall₂ (fun d n => HoldsClass.persistent n (parentOutline d)) c.interfaces ns).and
      (two n n?)
  have four (n : Nat) (n? : Option Nat) (ns : List Nat) (xs : List Member) :=
    (Persistent.forall₂ (fun f x => Resolved.MemberTells.persistent x (fieldContents f))
      c.fields xs).and (three n n? ns)
  have five (n : Nat) (n? : Option Nat) (ns : List Nat) (xs ys : List Member) :=
    (Persistent.forall₂ MethodTells.persistent c.methods ys).and (four n n? ns xs)
  refine Meets.bind (Gives.mapFault _ (Gives.of_meets (PoolM.classRef_spec name))) fun this => ?_
  refine Meets.step (one this) (Gives.of_meets (superSlot_meets c.superclass)) fun super => ?_
  refine Meets.step (two this super) interfaces fun parents => ?_
  refine Meets.step (three this super parents) fields fun xs => ?_
  refine Meets.step (four this super parents xs) methods fun ys => ?_
  refine Meets.step (five this super parents xs ys) (Gives.mapFault _ (sourceAttributes_gives c))
    fun source => ?_
  refine Meets.step (.and (GivesAttributes.persistent source (sourceContents c))
    (five this super parents xs ys)) (Gives.mapFault _ (commonAttributes_gives c.annotations))
    fun common => ?_
  refine Meets.pure fun p ⟨shared, sources, methods, fields, interfaces, superclass, named⟩ => ?_
  obtain ⟨ks, isMethod, tells⟩ := exists_between methods
  exact ⟨ks, isMethod, ⟨rfl, flagsOfClass_narrow _⟩, named, superclass,
    List.forall₂_map_right_iff.mpr interfaces.flip, List.forall₂_map_right_iff.mpr fields.flip, tells,
    List.rel_append sources shared⟩

/-- A class file is made of what its class says, and read as that if its lists can be
counted. -/
theorem exists_isClass {version : Version} {c : ClassDecl} {e : ClassEntry}
    (made : classEntry version c = .ok e)
    (texts : ∀ s ∈ textsOf c, (Text.ModifiedUtf8.encode s).length < 2 ^ 16)
    (short : Resolved.AllShort (attributesOf c)) :
    ∃ k, IsClass version c k ∧ (k.Countable → Resolved.read e.bytes = some k) := by
  obtain ⟨known, x, pool, result, bytes⟩ := classEntry_eq_ok.mp made
  have parts := partsOf_gives version e.name c ConstantPool.empty ConstantPool.wellFormed_empty trivial
  rw [textsOf, known] at texts
  rw [attributesOf, known] at short
  dsimp only at texts short
  rw [result] at parts texts short
  obtain ⟨wf, _, methods, isMethod, tells⟩ := parts
  have fields : List.Forall₂ IsField c.fields (c.fields.map fieldContents) :=
    List.forall₂_map_right_iff.mpr (List.forall₂_same.mpr fun f _ => isField_iff.mpr rfl)
  have isClass : IsClass version c ⟨0, version.major.toNat, _, e.name, _, _, _, methods, _⟩ :=
    ⟨⟨rfl, rfl⟩, rfl, known, rfl, rfl, fields, isMethod, _, isSignatureOf_iff.mpr rfl, rfl⟩
  refine ⟨_, isClass, fun countable => ?_⟩
  rw [bytes]
  refine Resolved.read_encode wf (fun k mem s same => ?_) tells ⟨rfl, rfl⟩ countable short
  subst same
  exact texts s (List.mem_filterMap.mpr ⟨_, mem, rfl⟩)

/-- Where the texts and the attributes are short enough, a class file is read as what the
class says just where its counts hold the numbers of items of all lists. -/
theorem read_iff_listsFit {version : Version} {c : ClassDecl} {e : ClassEntry}
    (made : classEntry version c = .ok e)
    (texts : ∀ s ∈ textsOf c, (Text.ModifiedUtf8.encode s).length < 2 ^ 16)
    (short : Resolved.AllShort (attributesOf c)) :
    (∃ k, Resolved.read e.bytes = some k ∧ IsClass version c k) ↔ ListsFit c := by
  constructor
  · rintro ⟨k, read, isClass⟩
    exact isClass.countable_iff.mp (Resolved.countable_of_read read)
  · intro lists
    obtain ⟨k, isClass, read⟩ := exists_isClass made texts short
    exact ⟨k, read (isClass.countable_iff.mpr lists), isClass⟩

/-! ## A class with a constant, two methods, and annotations -/

/-- An annotation for the program. -/
def sampleNote : Dalvik.Annotation := ⟨.runtime, ⟨"LN;"⟩, [("v", .int 7)]⟩

/-- A signature in two pieces. -/
def sampleSignature : Dalvik.Annotation :=
  ⟨.system, ⟨"Ldalvik/annotation/Signature;"⟩, [("value", .array [.string "TT", .string ";"])]⟩

/-- A list of one exception. -/
def sampleThrows : Dalvik.Annotation :=
  ⟨.system, ⟨"Ldalvik/annotation/Throws;"⟩, [("value", .array [.type ⟨"LE;"⟩])]⟩

/-- A constant. -/
def sampleField : Field :=
  ⟨⟨⟨"LA;"⟩, "N", ⟨"I"⟩⟩, ⟨0x18⟩, some (.int 70000), [sampleSignature]⟩

/-- A method without a body. -/
def sampleMethod : Method :=
  ⟨⟨⟨"LA;"⟩, "n", ⟨⟨"V"⟩, []⟩⟩, ⟨0x401⟩, [sampleNote, sampleSignature, sampleThrows], [], none⟩

/-- A class with the two, and with a method that returns zero. -/
def sampleClass : ClassDecl :=
  ⟨⟨"LA;"⟩, ⟨0x401⟩, some ⟨"Ljava/lang/Object;"⟩, [], some "A.java", [sampleNote, sampleSignature],
    [sampleField], [methodWith zeroBody, sampleMethod]⟩

/-- The constants of its class file. -/
def sampleConstants : List Constant :=
  [.utf8 "A", .classRef 1, .utf8 "java/lang/Object", .classRef 3, .utf8 "N", .utf8 "I",
    .integer 70000, .utf8 "ConstantValue", .utf8 "TT;", .utf8 "Signature", .utf8 "m", .utf8 "()I",
    .utf8 "Code", .utf8 "n", .utf8 "()V", .utf8 "E", .classRef 16, .utf8 "Exceptions", .utf8 "LN;",
    .integer 7, .utf8 "v", .utf8 "RuntimeVisibleAnnotations", .utf8 "A.java", .utf8 "SourceFile"]

/-- The attribute for the annotation for the program. -/
def sampleShown : Attribute := ⟨22, [0, 1, 0, 19, 0, 1, 0, 21, 0x49, 0, 20]⟩

/-- The parts of its class file. -/
def sampleParts : Parts :=
  ⟨0x421, 2, some 4, [], [⟨0x18, 5, 6, [⟨8, [0, 7]⟩, ⟨10, [0, 9]⟩]⟩],
    [⟨1, 11, 12, [⟨13, [0, 1, 0, 1, 0, 0, 0, 2, 3, 0xAC, 0, 0, 0, 0]⟩]⟩,
      ⟨0x401, 14, 15, [⟨18, [0, 1, 0, 17]⟩, ⟨10, [0, 9]⟩, sampleShown]⟩],
    [⟨24, [0, 23]⟩, ⟨10, [0, 9]⟩, sampleShown]⟩

/-- The field is a constant with a signature. -/
theorem fieldForm_sample : fieldForm sampleField = (do
    let name ← PoolM.utf8 "N"
    let descriptor ← PoolM.utf8 "I"
    let constant ← Attribute.of (.constantValue (← PoolM.slot (.integer 70000)))
    let signature ← Attribute.of (.signature (← PoolM.utf8 "TT;"))
    return ⟨0x18, name, descriptor, [constant, signature]⟩) := by
  have constant : constantAttributes sampleField
      = (do return [← Attribute.of (.constantValue (← PoolM.slot (.integer 70000)))]) := rfl
  have signature : signatureAttributes sampleField.annotations
      = (do return [← Attribute.of (.signature (← PoolM.utf8 "TT;"))]) := rfl
  have shown : annotationAttributes sampleField.annotations = pure [] := rfl
  simp only [fieldForm, constant, commonAttributes, signature, shown, bind_assoc, pure_bind,
    List.append_nil]
  rfl

/-- The signature is put together from its pieces. -/
theorem signatureAttributes_sample {annotations : List Dalvik.Annotation}
    (signed : signature? annotations = some "TT;") : signatureAttributes annotations
      = (do return [← Attribute.of (.signature (← PoolM.utf8 "TT;"))]) := by
  rw [signatureAttributes, signed]

/-- A method without code and without marked parameters has the attributes that its
annotations carry. -/
theorem methodForm_bodiless {m : Method} (bodiless : m.flags.isBodiless = true)
    (plain : m.parameterAnnotations = []) :
    methodForm m = (do
      let name ← PoolM.utf8 m.ref.name
      let descriptor ← PoolM.utf8 m.ref.prototype.render
      let exceptions ← exceptionAttributes m
      let common ← commonAttributes m.annotations
      return ⟨flagsOfMethod m.flags, name, descriptor, exceptions ++ common⟩) := by
  have code : codeAttributes m = pure [] := by rw [codeAttributes, if_pos bodiless]
  have parameters : (liftM (parameterAttributes m.parameterAnnotations) : Translator (List Attribute))
      = pure [] := by
    rw [plain]
    rfl
  simp only [methodForm, code, parameters, pure_bind, List.nil_append, List.append_nil]

/-- The parts of the class file of the class. -/
theorem partsOf_sample :
    partsOf "A" sampleClass (ofConstants []) = (.ok sampleParts, ofConstants sampleConstants) := by
  have parent : parentSlot ⟨"Ljava/lang/Object;"⟩ = liftM (PoolM.classRef "java/lang/Object") := rfl
  have method : methodForm sampleMethod = (do
      let name ← PoolM.utf8 "n"
      let descriptor ← PoolM.utf8 "()V"
      let exceptions ← exceptionAttributes sampleMethod
      let common ← commonAttributes [sampleNote, sampleSignature, sampleThrows]
      return ⟨0x401, name, descriptor, exceptions ++ common⟩) := methodForm_bodiless rfl rfl
  have thrown : exceptionAttributes sampleMethod
      = (do return [← Attribute.of (.exceptions (← ["E"].mapM PoolM.classRef))]) := rfl
  have ofMethod := signatureAttributes_sample
    (rfl : signature? [sampleNote, sampleSignature, sampleThrows] = some "TT;")
  have ofClass := signatureAttributes_sample (rfl : signature? [sampleNote, sampleSignature] = some "TT;")
  -- what is for the virtual machine is neither visible nor invisible
  have hidden (p : ConstantPool) : markedForm sampleSignature p = (.ok none, p)
      ∧ markedForm sampleThrows p = (.ok none, p) := ⟨rfl, rfl⟩
  have shown : markedForm sampleNote = (do return some (true, ← annotationForm sampleNote)) := rfl
  have note : sampleNote.type.text = "LN;" ∧ sampleNote.elements = [("v", .int 7)] := ⟨rfl, rfl⟩
  simp (disch := decide) only [sampleClass, partsOf, fieldForm_sample, methodForm_zeroBody, method,
    thrown, sourceAttributes, parent, commonAttributes, ofMethod, ofClass, annotationAttributes,
    split, hidden, shown, note, annotationForm, elementForms, elementForm, attributeIf,
    Attribute.of, Content.name, PoolM.integer, PoolM.classRef, PoolM.utf8, PoolM.bind_run, lift_run,
    PoolM.pure_run, PoolM.slot_ofConstants, PoolM.slot_ofConstants_of_mem, slotsOf, Constant.width,
    List.map_nil, List.map_cons, List.sum_nil, List.sum_cons, List.nil_append, List.cons_append,
    Except.mapError, Option.mapM_some, map_eq_pure_bind, List.mapM_nil, List.mapM_cons,
    List.filterMap, List.filter, List.isEmpty_nil, List.isEmpty_cons, id, Bool.not_true,
    Bool.not_false, Bool.false_eq_true, if_true, if_false]
  rfl

/-- The class file of the class. -/
theorem classEntry_sample : classEntry Version.default sampleClass
    = .ok ⟨"A", encode Version.default (ofConstants sampleConstants) sampleParts⟩ :=
  classEntry_eq_ok.mpr ⟨rfl, _, _, partsOf_sample, rfl⟩

end StubJar.Translation
