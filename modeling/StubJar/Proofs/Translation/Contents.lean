import StubJar.Proofs.ClassFile.Contents
import StubJar.Translation.Annotation

/-!
# What translated annotations tell

The attributes that are made of annotations say what the annotations say
(`commonAttributes_gives`, `parameterAttributes_gives`): every value that has a form in a
class file, under its letter, the others left out.
-/

namespace StubJar.Translation

open StubJar.Dalvik StubJar.ClassFile StubJar.ClassFile.ConstantPool

/-! ## Computations that succeed -/

/-- If the computation gives a result, this holds of the result and the pool that it
leaves. -/
def Gives {ε α : Type} (x : PoolM ε α) (post : α → ConstantPool → Prop) : Prop :=
  Meets (fun _ => True) x post fun _ => True

namespace Gives

variable {ε δ α β : Type} {x : PoolM ε α} {post : α → ConstantPool → Prop}

/-- What meets anything gives it. -/
theorem of_meets {faults : ε → Prop} (h : Meets (fun _ => True) x post faults) : Gives x post :=
  h.mono (fun _ => id) (fun _ _ => id) fun _ _ => trivial

/-- A result gives what holds of it. -/
theorem pure {a : α} (holds : ∀ p, post a p) : Gives (Pure.pure a : PoolM ε α) post :=
  Meets.pure fun p _ => holds p

/-- A fault gives nothing. -/
theorem throw {fault : ε} : Gives (MonadExcept.throw fault : PoolM ε α) post := Meets.throw trivial

/-- Faults can be renamed. -/
theorem mapFault (f : ε → δ) (h : Gives x post) : Gives (PoolM.mapFault f x) post :=
  Meets.mapFault f h fun _ => id

/-- The result of a computation, changed. -/
theorem map {f : α → β} {post' : β → ConstantPool → Prop} (h : Gives x post)
    (after : ∀ a p, post a p → post' (f a) p) : Gives (do return f (← x)) post' :=
  Meets.bind h fun a => Meets.pure fun p => after a p

/-- Two computations, of which the first gives what stays. -/
theorem seq {y : α → PoolM ε β} {mid : β → ConstantPool → Prop} {γ : Type} {f : α → β → γ}
    {post' : γ → ConstantPool → Prop} (first : Gives x post) (keeps : ∀ a, Persistent (post a))
    (second : ∀ a, Gives (y a) mid) (after : ∀ a b p, post a p → mid b p → post' (f a b) p) :
    Gives (do
      let a ← x
      let b ← y a
      return f a b) post' :=
  Meets.bind first fun a => Meets.step (keeps a) (second a) fun b =>
    Meets.pure fun p ⟨found, kept⟩ => after a b p kept found

end Gives

/-! ## Values -/

mutual

/-- A value in a class file, if it has a place there. -/
def elementContents : Value → Option Resolved.ElementValue
  | .byte v => some (.constant 0x42 (.int (Int32.ofInt v.toInt)))
  | .short v => some (.constant 0x53 (.int (Int32.ofInt v.toInt)))
  | .char u => some (.constant 0x43 (.int (Int32.ofInt u.toNat)))
  | .int v => some (.constant 0x49 (.int (Int32.ofInt v.toInt)))
  | .boolean b => some (.constant 0x5A (.int (Int32.ofInt b.toNat)))
  | .long v => some (.constant 0x4A (.long v))
  | .float bits => some (.constant 0x46 (.float bits))
  | .double bits => some (.constant 0x44 (.double bits))
  | .string s => some (.constant 0x73 (.string s))
  | .type d => some (.classInfo d.text)
  | .enum f => some (.enum f.type.text f.name)
  | .array items => some (.array (itemContents items))
  | .nested type elements => some (.nested type.text (elementsContents elements))
  | .null | .methodType _ | .methodHandle _ | .field _ | .method _ => none

/-- The values that have a place in a class file. -/
def itemContents : List Value → List Resolved.ElementValue
  | [] => []
  | v :: vs => (elementContents v).toList ++ itemContents vs

/-- The elements whose values have a place in a class file. -/
def elementsContents : List (String × Value) → List (String × Resolved.ElementValue)
  | [] => []
  | (name, v) :: elements =>
    ((elementContents v).map (name, ·)).toList ++ elementsContents elements

end

/-- The form, if there is one, is read as the value, if that has a place. -/
def MaybeTells (p : ConstantPool) : Option ElementValue → Option Resolved.ElementValue → Prop :=
  Option.Rel (Resolved.FormTells p)

/-- What a value says, if it says anything, stays so when a pool grows. -/
theorem MaybeTells.persistent (form? : Option ElementValue) (x? : Option Resolved.ElementValue) :
    Persistent fun p => MaybeTells p form? x? := by
  intro p q grown tells
  cases tells with
  | none => exact .none
  | some tells => exact .some (Resolved.FormTells.persistent _ _ p q grown tells)

/-- A text gives a slot that holds it. -/
theorem utf8_gives (s : String) : Gives (PoolM.utf8 s) fun n p => p.Holds n (.utf8 s) :=
  Gives.of_meets (PoolM.utf8_spec s)

/-- An integer gives a slot for it. -/
theorem integer_gives (v : Int) :
    Gives (PoolM.integer v) fun n p => (Resolved.Literal.int (Int32.ofInt v)).Stands p n :=
  Gives.of_meets (PoolM.integer_spec v)

/-- A constant that refers to nothing. -/
theorem slot_gives (c : Constant) (resolves : ∀ p : ConstantPool, p.Resolves c) :
    Gives (PoolM.slot c) fun n p => p.Holds n c :=
  Gives.of_meets (PoolM.slot_spec c fun p _ => resolves p)

/-- A number under the letter of its kind. -/
theorem number_gives {x : PoolM Fault Nat} {l : Resolved.Literal} (tag : UInt8)
    (h : Gives x fun n p => l.Stands p n) (kind : l.hasTag tag.toNat = true) :
    Gives (do return some (.constant tag (← x)))
      fun form? p => MaybeTells p form? (some (.constant tag.toNat l)) :=
  h.map fun _ _ stands => .some (Resolved.FormTells.number stands kind)

mutual

/-- A value gives a form that says what it says. -/
theorem elementForm_gives (v : Value) :
    Gives (elementForm v) fun form? p => MaybeTells p form? (elementContents v) := by
  cases v with
  | byte | short | char | int | boolean =>
    rw [elementForm, elementContents]
    exact number_gives _ (integer_gives _) rfl
  | long v =>
    rw [elementForm, elementContents]
    exact number_gives 0x4A (slot_gives (.long v) fun _ => trivial) rfl
  | float bits =>
    rw [elementForm, elementContents]
    exact number_gives 0x46 (slot_gives (.float bits) fun _ => trivial) rfl
  | double bits =>
    rw [elementForm, elementContents]
    exact number_gives 0x44 (slot_gives (.double bits) fun _ => trivial) rfl
  | string s =>
    rw [elementForm, elementContents]
    exact (utf8_gives s).map fun _ _ holds => .some (.string holds)
  | type d =>
    rw [elementForm, elementContents]
    exact (utf8_gives d.text).map fun _ _ holds => .some (.classInfo holds)
  | enum f =>
    rw [elementForm, elementContents]
    exact (utf8_gives f.type.text).seq (fun n => .holds n _) (fun _ => utf8_gives f.name)
      fun _ _ _ type name => .some (.enum type name)
  | array items =>
    rw [elementForm, elementContents]
    exact (itemForms_gives items).map fun _ _ each => .some (.array each)
  | nested d elements =>
    rw [elementForm, elementContents]
    exact (utf8_gives d.text).seq (fun n => .holds n _) (fun _ => elementForms_gives elements)
      fun _ _ _ type each => .some (.nested type each)
  | null | methodType | methodHandle | field | method =>
    rw [elementForm, elementContents]
    exact Gives.pure fun _ => .none

/-- So do the items of an array, those left out that say nothing. -/
theorem itemForms_gives (vs : List Value) : Gives (itemForms vs)
    fun forms p => List.Forall₂ (Resolved.FormTells p) forms (itemContents vs) := by
  cases vs with
  | nil =>
    rw [itemForms, itemContents]
    exact Gives.pure fun _ => .nil
  | cons v vs =>
    rw [itemForms, itemContents]
    refine (elementForm_gives v).seq (fun form? => MaybeTells.persistent form? _)
      (fun _ => itemForms_gives vs) fun form? forms p first rest => ?_
    generalize elementContents v = x? at first ⊢
    cases first with
    | none => exact rest
    | some tells => exact .cons tells rest

theorem elementForms_gives (elements : List (String × Value)) : Gives (elementForms elements)
    fun forms p => List.Forall₂ (Resolved.ElementTells p) forms (elementsContents elements) := by
  cases elements with
  | nil =>
    rw [elementForms, elementsContents]
    exact Gives.pure fun _ => .nil
  | cons e elements =>
    rw [elementForms, elementsContents]
    refine Meets.bind (elementForm_gives e.2) fun form? => ?_
    generalize elementContents e.2 = x?
    -- an element is left out by both or by none
    cases form? with
    | none =>
      cases x? with
      | none => exact (elementForms_gives elements).mono (fun _ _ => trivial) (fun _ _ => id) fun _ => id
      | some x =>
        intro p wf tells
        cases tells
    | some form =>
      cases x? with
      | none =>
        intro p wf tells
        cases tells
      | some x =>
        refine Meets.step (MaybeTells.persistent _ _) (utf8_gives e.1) fun name => ?_
        refine Meets.step (.and (.holds name _) (MaybeTells.persistent _ _))
          (elementForms_gives elements) fun forms => Meets.pure fun p ⟨rest, named, tells⟩ => ?_
        cases tells with
        | some tells => exact .cons ⟨named, tells⟩ rest

end

/-! ## Annotations -/

/-- An annotation in a class file. -/
def annotationContents (a : Dalvik.Annotation) : Resolved.Annotation :=
  ⟨a.type.text, elementsContents a.elements⟩

/-- Who gets to see the annotations of an attribute. -/
def seenBy (visible : Bool) : Visibility := if visible then .runtime else .build

/-- The visible or the invisible annotations in a class file. -/
def contentsOf (visible : Bool) (annotations : List Dalvik.Annotation) : List Resolved.Annotation :=
  (annotations.filter (·.visibility == seenBy visible)).map annotationContents

/-- What is visible in a class file is what its readers see. -/
theorem visible?_beq (visible : Bool) (a : Dalvik.Annotation) :
    (visible? a == some visible) = (a.visibility == seenBy visible) := by
  unfold visible? seenBy
  cases a.visibility <;> cases visible <;> rfl

theorem annotationForm_gives (a : Dalvik.Annotation) : Gives (annotationForm a)
    fun form p => Resolved.AnnotationTells p form (annotationContents a) :=
  (utf8_gives a.type.text).seq (fun n => .holds n _) (fun _ => elementForms_gives a.elements)
    fun _ _ _ type each => .of_elements type each

/-- The form is marked as the annotation is, and read as it. -/
def MarkTells (a : Dalvik.Annotation) (mark? : Option (Bool × ClassFile.Annotation))
    (p : ConstantPool) : Prop :=
  mark?.map Prod.fst = visible? a
    ∧ ∀ mark, mark? = some mark → Resolved.AnnotationTells p mark.2 (annotationContents a)

/-- What a marked annotation says stays so when a pool grows. -/
theorem MarkTells.persistent (a : Dalvik.Annotation) (mark? : Option (Bool × ClassFile.Annotation)) :
    Persistent (MarkTells a mark?) :=
  fun p q grown found => ⟨found.1, fun mark same =>
    Resolved.AnnotationTells.persistent _ _ p q grown (found.2 mark same)⟩

/-- An annotation gives a mark for what it is visible to. -/
theorem markedForm_gives (a : Dalvik.Annotation) : Gives (markedForm a) (MarkTells a) := by
  rw [markedForm]
  split
  · rename_i neither
    exact Gives.pure fun _ => ⟨neither.symm, fun _ same => nomatch same⟩
  · rename_i visible either
    refine (annotationForm_gives a).map fun form p tells => ⟨either.symm, fun mark same => ?_⟩
    cases same
    exact tells

/-- The forms with a mark are read as the annotations with that mark. -/
theorem forms_tell {annotations : List Dalvik.Annotation}
    {marks : List (Option (Bool × ClassFile.Annotation))} {p : ConstantPool}
    (each : List.Forall₂ (fun a mark? => MarkTells a mark? p) annotations marks) (visible : Bool)
    (keep : Bool → Bool) (kept : ∀ b, keep b = (b == visible)) :
    List.Forall₂ (Resolved.AnnotationTells p) (((marks.filterMap id).filter (keep ·.1)).map Prod.snd)
      (contentsOf visible annotations) := by
  induction each with
  | nil => exact .nil
  | @cons a mark? annotations marks head _ ih =>
    obtain ⟨marked, tells⟩ := head
    unfold contentsOf at ih ⊢
    cases mark? with
    | none =>
      have other : ¬(a.visibility == seenBy visible) = true := by
        rw [← visible?_beq, ← marked]
        exact Bool.false_ne_true
      rw [List.filter_cons, if_neg other]
      exact ih
    | some mark =>
      have front : (some mark :: marks).filterMap id = mark :: marks.filterMap id := rfl
      have known : (a.visibility == seenBy visible) = keep mark.1 := by
        rw [← visible?_beq, ← marked, kept, Option.map_some, Option.some_beq_some]
      rw [front, List.filter_cons, List.filter_cons, known]
      by_cases same : keep mark.1 = true
      · rw [if_pos same, if_pos same]
        exact .cons (tells mark rfl) ih
      · rw [if_neg same, if_neg same]
        exact ih

/-- Both kinds of annotations. -/
def SplitTells (annotations : List Dalvik.Annotation) (s : Split) (p : ConstantPool) : Prop :=
  List.Forall₂ (Resolved.AnnotationTells p) s.visible (contentsOf true annotations)
    ∧ List.Forall₂ (Resolved.AnnotationTells p) s.invisible (contentsOf false annotations)

/-- What both lists say stays so when a pool grows. -/
theorem SplitTells.persistent (annotations : List Dalvik.Annotation) (s : Split) :
    Persistent (SplitTells annotations s) :=
  (Persistent.forall₂ Resolved.AnnotationTells.persistent _ _).and
    (Persistent.forall₂ Resolved.AnnotationTells.persistent _ _)

/-- Annotations give two lists, one for each visibility. -/
theorem split_gives (annotations : List Dalvik.Annotation) :
    Gives (split annotations) (SplitTells annotations) := by
  have marks : Gives (annotations.mapM markedForm) fun marks p =>
      List.Forall₂ (fun a mark? => MarkTells a mark? p) annotations marks :=
    Meets.mapM MarkTells.persistent fun a _ => markedForm_gives a
  refine marks.map fun marks p each => ⟨?_, ?_⟩
  · exact forms_tell each true id fun b => by cases b <;> rfl
  · exact forms_tell each false not fun b => by cases b <;> rfl

/-! ## Attributes -/

/-- The computation gives attributes that are read as those. -/
def GivesAttributes {ε : Type} (x : PoolM ε (List Attribute)) (xs : List Resolved.Attribute) : Prop :=
  Gives x fun as p => List.Forall₂ (Resolved.AttributeTells p) as xs

namespace GivesAttributes

variable {ε : Type} {x y : PoolM ε (List Attribute)} {xs ys : List Resolved.Attribute}

/-- What attributes say stays so when a pool grows. -/
theorem persistent (as : List Attribute) (xs : List Resolved.Attribute) :
    Persistent fun p => List.Forall₂ (Resolved.AttributeTells p) as xs :=
  Persistent.forall₂ Resolved.AttributeTells.persistent as xs

/-- Nothing gives no attributes. -/
theorem nothing : GivesAttributes (pure [] : PoolM ε (List Attribute)) [] := Gives.pure fun _ => .nil

/-- Some attributes, then others, made of what stays. -/
theorem append_of {pre : ConstantPool → Prop} (keeps : Persistent pre)
    (first : Meets pre x (fun as p => List.Forall₂ (Resolved.AttributeTells p) as xs) fun _ => True)
    (second : Meets pre y (fun as p => List.Forall₂ (Resolved.AttributeTells p) as ys) fun _ => True) :
    Meets pre (do return (← x) ++ (← y))
      (fun as p => List.Forall₂ (Resolved.AttributeTells p) as (xs ++ ys)) fun _ => True := by
  refine Meets.bind ((first.frame keeps).mono (fun _ holds => ⟨holds, holds⟩) (fun _ _ => id)
    fun _ => id) fun as => ?_
  refine Meets.bind ((second.frame (persistent as xs)).mono (fun _ => And.symm) (fun _ _ => id)
    fun _ => id) fun bs => ?_
  exact Meets.pure fun p ⟨two, one⟩ => List.rel_append one two

/-- Two steps give the attributes of both. -/
theorem append (first : GivesAttributes x xs) (second : GivesAttributes y ys) :
    GivesAttributes (do return (← x) ++ (← y)) (xs ++ ys) := append_of .true first second

/-- One attribute, made of contents that are read as it. -/
theorem one {pre : ConstantPool → Prop} {content : Content} {a : Resolved.Attribute}
    (tells : ∀ p, pre p → Resolved.ContentTells p content a) :
    Meets pre (do return [← Attribute.of content])
      (fun as p => List.Forall₂ (Resolved.AttributeTells p) as [a]) fun _ => True := by
  intro p wf before
  have made : Gives (Attribute.of content) fun b q => b.Named q content.name ∧ b.info = content.encode :=
    Gives.of_meets (Attribute.of_spec content)
  refine Meets.step (Resolved.ContentTells.persistent content a) made (fun b => ?_) p wf (tells p before)
  exact Meets.pure fun q ⟨⟨named, info⟩, tells⟩ => .cons (.of_content named info tells) .nil

/-- An attribute that is needed or not. -/
theorem attributeIf {pre : ConstantPool → Prop} {content : Content} {a : Resolved.Attribute}
    (isNeeded : Bool) (tells : ∀ p, pre p → Resolved.ContentTells p content a) :
    Meets pre (attributeIf isNeeded content)
      (fun as p => List.Forall₂ (Resolved.AttributeTells p) as (if isNeeded then [a] else []))
      fun _ => True := by
  cases isNeeded with
  | false => exact Meets.pure fun _ _ => .nil
  | true => exact one tells

/-- A slot, then an attribute made of it. -/
theorem of_slot {z : PoolM Fault Nat} {post : Nat → ConstantPool → Prop} {content : Nat → Content}
    {a : Resolved.Attribute} (h : Gives z post)
    (tells : ∀ n p, post n p → Resolved.ContentTells p (content n) a) :
    GivesAttributes (do return [← Attribute.of (content (← z))]) [a] :=
  Meets.bind h fun n => one (tells n)

end GivesAttributes

/-- The generic signature in a class file. -/
def signatureContents (annotations : List Dalvik.Annotation) : List Resolved.Attribute :=
  (signature? annotations).toList.map .signature

/-- The visible or the invisible annotations in a class file, if there are any. -/
def annotationContentsIf (visible : Bool) (annotations : List Dalvik.Annotation) :
    List Resolved.Attribute :=
  if !(contentsOf visible annotations).isEmpty then
    [.annotations visible (contentsOf visible annotations)]
  else []

/-- What a class and its members have in common. -/
def commonContents (annotations : List Dalvik.Annotation) : List Resolved.Attribute :=
  signatureContents annotations
    ++ (annotationContentsIf true annotations ++ annotationContentsIf false annotations)

/-- The visible or the invisible annotations of parameters, if any parameter has some. -/
def parameterContentsIf (visible : Bool) (parameters : List (List Dalvik.Annotation)) :
    List Resolved.Attribute :=
  if (parameters.map (contentsOf visible)).any (!·.isEmpty) then
    [.parameterAnnotations visible (parameters.map (contentsOf visible))]
  else []

/-- The annotations of parameters in a class file. -/
def parameterContents (parameters : List (List Dalvik.Annotation)) : List Resolved.Attribute :=
  parameterContentsIf true parameters ++ parameterContentsIf false parameters

/-- A signature gives its attribute. -/
theorem signatureAttributes_gives (annotations : List Dalvik.Annotation) :
    GivesAttributes (signatureAttributes annotations) (signatureContents annotations) := by
  unfold signatureAttributes signatureContents
  cases signature? annotations with
  | none => exact .nothing
  | some signature => exact .of_slot (utf8_gives signature) fun _ _ holds => .signature holds

/-- Lists that are related are both empty or both not. -/
theorem isEmpty_congr {α β : Type} {R : α → β → Prop} {as : List α} {bs : List β}
    (related : List.Forall₂ R as bs) : as.isEmpty = bs.isEmpty := by
  cases related <;> rfl

/-- So it is with lists of lists. -/
theorem any_congr {α β : Type} {R : α → β → Prop} {as : List (List α)} {bs : List (List β)}
    (related : List.Forall₂ (List.Forall₂ R) as bs) :
    as.any (!·.isEmpty) = bs.any (!·.isEmpty) := by
  induction related with
  | nil => rfl
  | cons head _ ih => rw [List.any_cons, List.any_cons, isEmpty_congr head, ih]

/-- The attribute for annotations of one kind. -/
theorem annotations_give (visible : Bool) {forms : List ClassFile.Annotation}
    {annotations : List Dalvik.Annotation} {pre : ConstantPool → Prop}
    (each : ∀ p, pre p → List.Forall₂ (Resolved.AnnotationTells p) forms (contentsOf visible annotations)) :
    Meets pre (attributeIf (!forms.isEmpty) (.annotations visible forms))
      (fun as p => List.Forall₂ (Resolved.AttributeTells p) as (annotationContentsIf visible annotations))
      fun _ => True := by
  intro p wf before
  unfold annotationContentsIf
  rw [isEmpty_congr (each p before)]
  exact GivesAttributes.attributeIf _ (fun p holds => .annotations (each p holds)) p wf before

/-- Annotations give an attribute for each visibility that has any. -/
theorem annotationAttributes_gives (annotations : List Dalvik.Annotation) :
    GivesAttributes (annotationAttributes annotations)
      (annotationContentsIf true annotations ++ annotationContentsIf false annotations) := by
  refine Meets.bind (split_gives annotations) fun s => ?_
  exact GivesAttributes.append_of (SplitTells.persistent annotations s)
    (annotations_give true fun _ tells => tells.1) (annotations_give false fun _ tells => tells.2)

/-- The attribute for annotations of parameters of one kind. -/
theorem parameters_give (visible : Bool) {forms : List (List ClassFile.Annotation)}
    {parameters : List (List Dalvik.Annotation)} {pre : ConstantPool → Prop}
    (each : ∀ p, pre p → List.Forall₂ (List.Forall₂ (Resolved.AnnotationTells p)) forms
      (parameters.map (contentsOf visible))) :
    Meets pre (attributeIf (forms.any (!·.isEmpty)) (.parameterAnnotations visible forms))
      (fun as p => List.Forall₂ (Resolved.AttributeTells p) as (parameterContentsIf visible parameters))
      fun _ => True := by
  intro p wf before
  unfold parameterContentsIf
  rw [any_congr (each p before)]
  exact GivesAttributes.attributeIf _ (fun p holds => .parameterAnnotations (each p holds)) p wf before

theorem parameterAttributes_gives (parameters : List (List Dalvik.Annotation)) :
    GivesAttributes (parameterAttributes parameters) (parameterContents parameters) := by
  have splits : Gives (parameters.mapM split) fun ss p =>
      List.Forall₂ (fun annotations s => SplitTells annotations s p) parameters ss :=
    Meets.mapM SplitTells.persistent fun annotations _ => split_gives annotations
  refine Meets.bind splits fun ss => ?_
  refine GivesAttributes.append_of (Persistent.forall₂ SplitTells.persistent parameters ss)
    (parameters_give true fun p each => ?_) (parameters_give false fun p each => ?_)
  · exact List.forall₂_map_left_iff.mpr (List.forall₂_map_right_iff.mpr (each.flip.imp fun _ _ => And.left))
  · exact List.forall₂_map_left_iff.mpr (List.forall₂_map_right_iff.mpr (each.flip.imp fun _ _ => And.right))

/-- What all kinds of items have gives its attributes. -/
theorem commonAttributes_gives (annotations : List Dalvik.Annotation) :
    GivesAttributes (commonAttributes annotations) (commonContents annotations) :=
  (signatureAttributes_gives annotations).append (annotationAttributes_gives annotations)

end StubJar.Translation
