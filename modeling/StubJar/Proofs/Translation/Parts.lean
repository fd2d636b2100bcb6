import StubJar.Proofs.ClassFile.Grammar
import StubJar.Proofs.Translation.Attributes
import StubJar.Proofs.Translation.StubCode
import StubJar.Translation.Class

/-!
# Parts of a translated class

What the parts of a class file say is what the class says (`partsOf_meets`): members
keep their names, descriptors and order, and a method has code if and only if it is
neither abstract nor native. With stubs for bodies nothing fails on account of a
body: what is left are names that name no class, and a full pool.
-/

namespace StubJar.Translation

open StubJar.Dalvik StubJar.ClassFile StubJar.ClassFile.ConstantPool

/-- The fault has nothing to do with the body of a method. -/
inductive Fault.SparesBodies : Fault → Prop
  | notAClass (type : String) : SparesBodies (.notAClass type)
  | duplicateClass (name : String) : SparesBodies (.duplicateClass name)
  | poolOverflow (slot : Nat) : SparesBodies (.classFile (.poolOverflow slot))

/-- What concerns the pool fails in a translation for the pool only. -/
theorem Meets.lift {α : Type} {pre : ConstantPool → Prop} {x : PoolM ClassFile.Fault α}
    {post : α → ConstantPool → Prop} (h : Meets pre x post ClassFile.Fault.IsOverflow) :
    Meets pre (liftM x : Translator α) post Fault.SparesBodies :=
  h.mapFault Fault.classFile fun _ full => by
    obtain ⟨slot, rfl⟩ := full
    exact .poolOverflow slot

/-! ## What is to be said -/

/-- A field in a class file. -/
def fieldOutline (f : Field) : Grammar.Member :=
  ⟨(flagsOfField f.flags).toNat, f.ref.name, f.ref.type.text, []⟩

/-- The code of a stub in a class file. -/
def codeOutline (m : Method) : Grammar.Code :=
  let letter := m.ref.prototype.result.shorty?.getD 'V'
  ⟨stubDepth letter, m.ins, stubBytes letter, [], []⟩

/-- A method in a class file, where it has a stub for its body. -/
def methodOutline (m : Method) : Grammar.Member :=
  ⟨(flagsOfMethod m.flags).toNat, m.ref.name, m.ref.prototype.render,
    if m.flags.isBodiless then [] else [codeOutline m]⟩

/-- The name under which another class builds on a class. -/
def parentOutline (d : Descriptor) : String := d.className?.getD d.text

/-- A class in a class file, where it has stubs for all bodies. -/
def classOutline (version : Version) (name : String) (c : ClassDecl) : Grammar.Class :=
  ⟨version.major.toNat, (flagsOfClass c.flags).toNat, name, c.superclass.map parentOutline,
    c.interfaces.map parentOutline, c.fields.map fieldOutline, c.methods.map methodOutline⟩

/-! ## Flags -/

/-- Bits that are kept are no more than those that keep them. -/
theorem and_narrow (bits : UInt32) {kept : UInt32} (narrow : kept.toNat < 2 ^ 16) :
    (bits &&& kept).toNat < 2 ^ 16 := by
  rw [UInt32.toNat_and]
  exact Nat.lt_of_le_of_lt Nat.and_le_right narrow

/-- Narrow bits make narrow bits. -/
theorem or_narrow {bits more : UInt32} (first : bits.toNat < 2 ^ 16) (second : more.toNat < 2 ^ 16) :
    (bits ||| more).toNat < 2 ^ 16 := by
  rw [UInt32.toNat_or]
  exact Nat.or_lt_two_pow first second

/-- The flags of a field have 16 bits. -/
theorem flagsOfField_narrow (f : FieldFlags) : (flagsOfField f).toNat < 2 ^ 16 :=
  and_narrow _ (by decide)

theorem flagsOfMethod_narrow (f : MethodFlags) : (flagsOfMethod f).toNat < 2 ^ 16 := by
  have kept : (f.bits &&& ClassFile.methodBits).toNat < 2 ^ 16 := and_narrow _ (by decide)
  rw [flagsOfMethod]
  split
  · exact or_narrow kept (by decide)
  · exact kept

theorem flagsOfClass_narrow (f : ClassFlags) : (flagsOfClass f).toNat < 2 ^ 16 := by
  have kept : (f.bits &&& ~~~(Flag.privateBit ||| Flag.protectedBit ||| Flag.staticBit)
      &&& ClassFile.classBits).toNat < 2 ^ 16 := and_narrow _ (by decide)
  have widened : (if f.has Flag.protectedBit then
      f.bits &&& ~~~(Flag.privateBit ||| Flag.protectedBit ||| Flag.staticBit)
        &&& ClassFile.classBits ||| Flag.publicBit
      else f.bits &&& ~~~(Flag.privateBit ||| Flag.protectedBit ||| Flag.staticBit)
        &&& ClassFile.classBits).toNat < 2 ^ 16 := by
    split
    · exact or_narrow kept (by decide)
    · exact kept
  rw [flagsOfClass]
  split
  · exact widened
  · exact or_narrow widened (by decide)

/-! ## Fields -/

/-- The constant of a field is there unless the pool overflows. -/
theorem overflows_fieldConstant {type : Descriptor} {v : Value} {constant : PoolM ClassFile.Fault Nat}
    (h : fieldConstant? type v = some constant) : Overflows constant := by
  unfold fieldConstant? at h
  split at h
  all_goals cases h
  all_goals first
    | exact .integer _
    | exact .slot _ fun _ => trivial
    | exact .of_meets (PoolM.stringRef_spec _)

/-- A constant field gets one attribute more. -/
theorem adds_constantAttributes (f : Field) : Adds (constantAttributes f) 1 := by
  rw [constantAttributes]
  cases known : (if f.isStatic && f.isFinal then f.initial else none).bind
      (fieldConstant? f.ref.type) with
  | none => exact Adds.nothing
  | some constant =>
    obtain ⟨v, _, found⟩ := Option.bind_eq_some_iff.mp known
    exact Adds.after (overflows_fieldConstant found) fun _ => Adds.one _ (by simp [Content.name])

/-- A field is translated as its outline. -/
theorem fieldForm_meets (f : Field) :
    Meets (fun _ => True) (fieldForm f) (fun x p => Grammar.MemberMeans p x (fieldOutline f))
      ClassFile.Fault.IsOverflow := by
  have named (n m : Nat) : Persistent fun p =>
      p.Holds m (.utf8 f.ref.type.text) ∧ p.Holds n (.utf8 f.ref.name) := .and (.holds m _) (.holds n _)
  refine (PoolM.utf8_spec _).bind fun name =>
    Meets.step (.holds name _) (PoolM.utf8_spec _) fun descriptor =>
    Meets.step (named name descriptor) (adds_constantAttributes f) fun constant =>
    Meets.step (.and (Adds.persistent constant 1) (named name descriptor))
      (adds_commonAttributes f.annotations) fun common =>
    Meets.pure fun p ⟨⟨plain, few⟩, ⟨plain', few'⟩, descriptor_holds, name_holds⟩ => ?_
  refine ⟨⟨rfl, flagsOfField_narrow _⟩, name_holds, descriptor_holds, ?_, ?_⟩
  · refine ⟨[], constant ++ common, rfl, .nil, fun a mem => ?_⟩
    exact (List.mem_append.mp mem).elim (plain' a) (plain a)
  · change (constant ++ common).length < 2 ^ 16
    rw [List.length_append]
    omega

/-! ## Methods -/

/-- A method that needs no code, or has that of its stub. -/
def Translatable (m : Method) : Prop :=
  m.flags.isBodiless = true ∨ (m.flags.isBodiless = false ∧ ∃ letter, Stubbed m letter)

/-- The code of a stub means what its outline says. -/
theorem codeMeans_stubCode {m : Method} {letter : Char} (h : Stubbed m letter) {p : ConstantPool}
    {a : Attribute} (named : a.Named p "Code") (contents : a.info = (stubCode letter m).encode) :
    Grammar.CodeMeans p a (codeOutline m) := by
  have depth := stubDepth_le letter
  have bytes := length_stubBytes letter
  have few := h.few
  rw [Stub.maxArgumentWidth] at few
  refine ⟨named, fun cs => ?_⟩
  rw [contents, codeOutline, h.known]
  exact (Grammar.spells_code (c := stubCode letter m) (Nat.lt_of_le_of_lt depth (by decide))
    (Nat.lt_of_le_of_lt few (by decide)) (Nat.lt_of_le_of_lt bytes (by decide)) rfl cs).whole

/-- A method that can be translated has the code of its outline. -/
theorem codeAttributes_meets {m : Method} (h : Translatable m) :
    Meets (fun _ => True) (codeAttributes m)
      (fun as p => List.Forall₂ (Grammar.CodeMeans p) as (methodOutline m).codes)
      Fault.SparesBodies := by
  rw [codeAttributes]
  rcases h with bodiless | ⟨embodied, letter, stubbed⟩
  · rw [if_pos bodiless, methodOutline, if_pos bodiless]
    exact Meets.pure fun _ _ => .nil
  · rw [if_neg (by rw [embodied]; exact Bool.false_ne_true), methodOutline,
      if_neg (by rw [embodied]; exact Bool.false_ne_true)]
    intro p wf before
    rw [PoolM.bind_run, codeOf_stub stubbed]
    have made : Meets (fun _ => True) (Attribute.of (.code (stubCode letter m))) _ _ :=
      Attribute.of_spec _
    refine (Meets.lift made).bind (fun a => ?_) p wf before
    exact Meets.pure fun q ⟨named, contents⟩ =>
      .cons (codeMeans_stubCode stubbed named contents) .nil

/-- What a method throws makes one attribute. -/
theorem adds_exceptionAttributes (m : Method) : Adds (exceptionAttributes m) 1 := by
  rw [exceptionAttributes]
  split
  · exact Adds.nothing
  · exact Adds.after (Overflows.mapM (fun _ => .of_meets (PoolM.classRef_spec _)) _) fun _ =>
      Adds.one _ (by simp [Content.name])

/-- What code means stays so when a pool grows. -/
theorem CodeMeans.persistent (a : Attribute) (c : Grammar.Code) :
    Persistent fun p => Grammar.CodeMeans p a c :=
  fun _ _ grown found => ⟨Holds.mono found.1 grown, found.2⟩

/-- A method is translated as its outline. -/
theorem methodForm_meets {m : Method} (h : Translatable m) :
    Meets (fun _ => True) (methodForm m) (fun x p => Grammar.MemberMeans p x (methodOutline m))
      Fault.SparesBodies := by
  have few_codes : (methodOutline m).codes.length ≤ 1 := by
    rw [methodOutline]
    split <;> simp
  have named (n k : Nat) : Persistent fun p =>
      p.Holds k (.utf8 m.ref.prototype.render) ∧ p.Holds n (.utf8 m.ref.name) :=
    .and (.holds k _) (.holds n _)
  have coded (n k : Nat) (code : List Attribute) :=
    (Persistent.forall₂ CodeMeans.persistent code (methodOutline m).codes).and (named n k)
  refine (Meets.lift (PoolM.utf8_spec _)).bind fun name =>
    Meets.step (.holds name _) (Meets.lift (PoolM.utf8_spec _)) fun descriptor =>
    Meets.step (named name descriptor) (codeAttributes_meets h) fun code =>
    Meets.step (coded name descriptor code) (Meets.lift (adds_exceptionAttributes m))
      fun exceptions =>
    Meets.step (.and (Adds.persistent exceptions 1) (coded name descriptor code))
      (Meets.lift (adds_commonAttributes m.annotations)) fun common =>
    Meets.step (.and (Adds.persistent common 3)
      (.and (Adds.persistent exceptions 1) (coded name descriptor code)))
      (Meets.lift (adds_parameterAttributes m.parameterAnnotations)) fun parameters =>
    Meets.pure fun p ⟨⟨plain, few⟩, ⟨plain', few'⟩, ⟨plain'', few''⟩, codes, descriptor_holds,
      name_holds⟩ => ?_
  refine ⟨⟨rfl, flagsOfMethod_narrow _⟩, name_holds, descriptor_holds, ?_, ?_⟩
  · refine ⟨code, exceptions ++ common ++ parameters, ?_, codes, fun a mem => ?_⟩
    · simp only [List.append_assoc]
    · rcases List.mem_append.mp mem with mem | mem
      · exact (List.mem_append.mp mem).elim (plain'' a) (plain' a)
      · exact plain a mem
  · have count := codes.length_eq
    simp only [List.length_append]
    omega

/-! ## Classes -/

/-- A parent gets a slot for its class. -/
theorem parentSlot_meets (d : Descriptor) :
    Meets (fun _ => True) (parentSlot d) (fun n p => p.HoldsClass n (parentOutline d))
      Fault.SparesBodies := by
  have named : Meets (fun _ => True) (parentName d) (fun name _ => name = parentOutline d)
      Fault.SparesBodies := by
    rw [parentName, parentOutline]
    cases d.className? with
    | some name => exact Meets.pure fun _ _ => rfl
    | none =>
      dsimp only
      split
      · exact Meets.pure fun _ _ => rfl
      · exact Meets.throw (.notAClass _)
  refine Meets.bind named fun name => ?_
  intro p wf same
  obtain rfl := same
  have referred : Meets (fun _ => True) (PoolM.classRef (parentOutline d)) _ _ :=
    PoolM.classRef_spec _
  exact Meets.lift referred p wf trivial

/-- So does the superclass, if there is one. -/
theorem superSlot_meets (d? : Option Descriptor) :
    Meets (fun _ => True) (d?.mapM parentSlot)
      (fun n? p => Option.Rel p.HoldsClass n? (d?.map parentOutline)) Fault.SparesBodies := by
  cases d? with
  | none => exact Meets.pure fun _ _ => .none
  | some d =>
    rw [Option.mapM_some, map_eq_pure_bind]
    exact (parentSlot_meets d).bind fun _ => Meets.pure fun _ found => .some found

/-- A slot keeps its class when a pool grows. -/
theorem HoldsClass.persistent (n : Nat) (name : String) : Persistent fun p => p.HoldsClass n name :=
  fun _ _ grown found => found.mono grown

/-- What a member means stays so. -/
theorem MemberMeans.persistent (x : Member) (m : Grammar.Member) :
    Persistent fun p => Grammar.MemberMeans p x m := by
  intro p q grown means
  obtain ⟨codes, others, parts, first, plain⟩ := means.attributes
  exact ⟨means.flags, means.name.mono grown, means.descriptor.mono grown,
    ⟨codes, others, parts, Persistent.forall₂ CodeMeans.persistent codes m.codes p q grown first,
      fun a mem => (plain a mem).mono grown⟩, means.few⟩

theorem relClass_persistent (n? : Option Nat) (name? : Option String) :
    Persistent fun p => Option.Rel p.HoldsClass n? name? := by
  intro p q grown found
  cases found with
  | none => exact .none
  | some found => exact .some (found.mono grown)

/-- The file of a class makes one attribute. -/
theorem adds_sourceAttributes (c : ClassDecl) : Adds (sourceAttributes c) 1 := by
  rw [sourceAttributes]
  split
  · exact Adds.nothing
  · exact Adds.after (Overflows.utf8 _) fun _ => Adds.one _ (by simp [Content.name])

/-- The forms of the members of a list. -/
theorem members_meet {α : Type} {form : α → Translator Member} (outline : α → Grammar.Member)
    {items : List α} (each : ∀ a ∈ items, Meets (fun _ => True) (form a)
      (fun x p => Grammar.MemberMeans p x (outline a)) Fault.SparesBodies) :
    Meets (fun _ => True) (items.mapM form)
      (fun xs p => List.Forall₂ (Grammar.MemberMeans p) xs (items.map outline))
      Fault.SparesBodies := by
  refine (Meets.mapM (fun a b => MemberMeans.persistent b (outline a)) each).mono (fun _ => id)
    (fun xs p found => ?_) fun _ => id
  exact List.forall₂_map_right_iff.mpr found.flip

/-- With stubs for bodies, the parts of a class file say what the class says, unless
a name is none of a class or the pool is full. -/
theorem partsOf_meets (version : Version) (name : String) {c : ClassDecl}
    (h : ∀ m ∈ c.methods, Translatable m) :
    Meets (fun _ => True) (partsOf name c)
      (fun x p => Grammar.ClassMeans p x (classOutline version name c)) Fault.SparesBodies := by
  have interfaces : Meets (fun _ => True) (c.interfaces.mapM parentSlot)
      (fun ns p => List.Forall₂ p.HoldsClass ns (c.interfaces.map parentOutline))
      Fault.SparesBodies :=
    (Meets.mapM (fun d n => HoldsClass.persistent n (parentOutline d))
      fun d _ => parentSlot_meets d).mono (fun _ => id)
      (fun _ _ found => List.forall₂_map_right_iff.mpr found.flip) fun _ => id
  have fields := members_meet fieldOutline fun f (_ : f ∈ c.fields) =>
    Meets.lift (fieldForm_meets f)
  have methods := members_meet methodOutline fun m hm => methodForm_meets (h m hm)
  have one (n : Nat) := HoldsClass.persistent n name
  have two (n : Nat) (n? : Option Nat) :=
    (relClass_persistent n? (c.superclass.map parentOutline)).and (one n)
  have three (n : Nat) (n? : Option Nat) (ns : List Nat) :=
    (Persistent.forall₂ HoldsClass.persistent ns (c.interfaces.map parentOutline)).and (two n n?)
  have four (n : Nat) (n? : Option Nat) (ns : List Nat) (xs : List Member) :=
    (Persistent.forall₂ MemberMeans.persistent xs (c.fields.map fieldOutline)).and (three n n? ns)
  have five (n : Nat) (n? : Option Nat) (ns : List Nat) (xs ys : List Member) :=
    (Persistent.forall₂ MemberMeans.persistent ys (c.methods.map methodOutline)).and (four n n? ns xs)
  refine (Meets.lift (PoolM.classRef_spec name)).bind fun this =>
    Meets.step (one this) (superSlot_meets c.superclass) fun super =>
    Meets.step (two this super) interfaces fun parents =>
    Meets.step (three this super parents) fields fun xs =>
    Meets.step (four this super parents xs) methods fun ys =>
    Meets.step (five this super parents xs ys) (Meets.lift (adds_sourceAttributes c)) fun source =>
    Meets.step (.and (Adds.persistent source 1) (five this super parents xs ys))
      (Meets.lift (adds_commonAttributes c.annotations)) fun common =>
    Meets.pure fun p ⟨⟨plain, few⟩, ⟨plain', few'⟩, methods, fields, interfaces, superclass,
      this⟩ => ?_
  refine ⟨⟨rfl, flagsOfClass_narrow _⟩, this, superclass, interfaces, fields, methods,
    fun a mem => (List.mem_append.mp mem).elim (plain' a) (plain a), ?_⟩
  change (source ++ common).length < 2 ^ 16
  rw [List.length_append]
  omega

end StubJar.Translation
