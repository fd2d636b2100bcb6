import StubJar.Proofs.ClassFile.Pool
import StubJar.Translation.Annotation

/-!
# Attributes of a translation

Translating annotations fails only where the pool is full (`overflows_elementForm`),
and none of the attributes that are made of them is a code attribute
(`adds_commonAttributes`, `adds_parameterAttributes`).
-/

namespace StubJar.Translation

open StubJar.Dalvik StubJar.ClassFile StubJar.ClassFile.ConstantPool

/-- Nothing but a full pool makes the computation fail. -/
def Overflows {α : Type} (x : PoolM ClassFile.Fault α) : Prop :=
  Meets (fun _ => True) x (fun _ _ => True) ClassFile.Fault.IsOverflow

namespace Overflows

variable {α β : Type}

/-- A result does not fail. -/
theorem pure (a : α) : Overflows (Pure.pure a) := Meets.pure fun _ _ => trivial

/-- Two steps fail by overflow only, if both do. -/
theorem bind {x : PoolM ClassFile.Fault α} {f : α → PoolM ClassFile.Fault β} (first : Overflows x)
    (second : ∀ a, Overflows (f a)) : Overflows (x >>= f) := Meets.bind first second

/-- What is known to fail by overflow only, whatever else it meets. -/
theorem of_meets {x : PoolM ClassFile.Fault α} {post : α → ConstantPool → Prop}
    (h : Meets (fun _ => True) x post ClassFile.Fault.IsOverflow) : Overflows x :=
  h.mono (fun _ => id) (fun _ _ _ => trivial) fun _ => id

/-- A constant that leads somewhere gets a slot unless the pool overflows. -/
theorem slot (c : Constant) (resolves : ∀ p : ConstantPool, p.Resolves c) :
    Overflows (PoolM.slot c) := of_meets (PoolM.slot_spec c fun p _ => resolves p)

theorem utf8 (s : String) : Overflows (PoolM.utf8 s) := of_meets (PoolM.utf8_spec s)

theorem integer (v : Int) : Overflows (PoolM.integer v) := of_meets (PoolM.integer_spec v)

/-- Steps over a list fail by overflow only, if each of them does. -/
theorem mapM {f : α → PoolM ClassFile.Fault β} (each : ∀ a, Overflows (f a)) (items : List α) :
    Overflows (items.mapM f) :=
  of_meets (Meets.mapM (fun _ _ => .true) fun a _ => each a)

end Overflows

mutual

/-- A value is translated unless the pool overflows. -/
theorem overflows_elementForm (v : Value) : Overflows (elementForm v) := by
  cases v with
  | array items =>
    rw [elementForm]
    exact (overflows_itemForms items).bind fun _ => .pure _
  | nested d elements =>
    rw [elementForm]
    exact (Overflows.utf8 _).bind fun _ => (overflows_elementForms elements).bind fun _ => .pure _
  | enum f =>
    rw [elementForm]
    exact (Overflows.utf8 _).bind fun _ => (Overflows.utf8 _).bind fun _ => .pure _
  | byte | short | char | int | boolean =>
    rw [elementForm]
    exact (Overflows.integer _).bind fun _ => .pure _
  | long v =>
    rw [elementForm]
    exact (Overflows.slot (.long v) fun _ => trivial).bind fun _ => .pure _
  | float bits =>
    rw [elementForm]
    exact (Overflows.slot (.float bits) fun _ => trivial).bind fun _ => .pure _
  | double bits =>
    rw [elementForm]
    exact (Overflows.slot (.double bits) fun _ => trivial).bind fun _ => .pure _
  | string | type =>
    rw [elementForm]
    exact (Overflows.utf8 _).bind fun _ => .pure _
  | null | methodType | methodHandle | field | method =>
    rw [elementForm]
    exact .pure _

/-- So are the items of an array. -/
theorem overflows_itemForms (vs : List Value) : Overflows (itemForms vs) := by
  cases vs with
  | nil =>
    rw [itemForms]
    exact .pure _
  | cons v vs =>
    rw [itemForms]
    exact (overflows_elementForm v).bind fun _ => (overflows_itemForms vs).bind fun _ => .pure _

theorem overflows_elementForms (elements : List (String × Value)) :
    Overflows (elementForms elements) := by
  cases elements with
  | nil =>
    rw [elementForms]
    exact .pure _
  | cons e elements =>
    rw [elementForms]
    refine (overflows_elementForm e.2).bind fun form => ?_
    cases form with
    | none => exact overflows_elementForms elements
    | some form =>
      exact (Overflows.utf8 _).bind fun _ => (overflows_elementForms elements).bind fun _ => .pure _

end

theorem overflows_annotationForm (a : Dalvik.Annotation) : Overflows (annotationForm a) :=
  (Overflows.utf8 _).bind fun _ => (overflows_elementForms _).bind fun _ => .pure _

theorem overflows_markedForm (a : Dalvik.Annotation) : Overflows (markedForm a) := by
  rw [markedForm]
  split
  · exact .pure _
  · exact (overflows_annotationForm a).bind fun _ => .pure _

/-- So are all annotations of a list. -/
theorem overflows_split (annotations : List Dalvik.Annotation) : Overflows (split annotations) :=
  (Overflows.mapM overflows_markedForm annotations).bind fun _ => .pure _

/-! ## Attributes -/

/-- Nothing but a full pool makes the computation fail, which otherwise gives
some attributes, none of them a code attribute. -/
def Adds (x : PoolM ClassFile.Fault (List Attribute)) (most : Nat) : Prop :=
  Meets (fun _ => True) x (fun as p => (∀ a ∈ as, a.Plain p) ∧ as.length ≤ most)
    ClassFile.Fault.IsOverflow

namespace Adds

variable {x y : PoolM ClassFile.Fault (List Attribute)} {m n : Nat}

/-- Attributes stay plain when a pool grows. -/
theorem persistent (as : List Attribute) (n : Nat) :
    Persistent fun p => (∀ a ∈ as, a.Plain p) ∧ as.length ≤ n :=
  fun _ _ grown found => ⟨fun a mem => (found.1 a mem).mono grown, found.2⟩

/-- No attribute is added for nothing. -/
theorem nothing : Adds (pure []) n :=
  Meets.pure fun _ _ => ⟨fun _ mem => absurd mem List.not_mem_nil, Nat.zero_le _⟩

/-- One is added for contents that are not code. -/
theorem one (c : Content) (other : c.name ≠ "Code") :
    Adds (do return [← Attribute.of c]) 1 :=
  (Attribute.of_spec c).bind fun _ => Meets.pure fun _ found =>
    ⟨fun _ mem => List.mem_singleton.mp mem ▸ ⟨c.name, found.1, other⟩, Nat.le_refl 1⟩

/-- What comes before does not matter. -/
theorem after {α : Type} {first : PoolM ClassFile.Fault α}
    {f : α → PoolM ClassFile.Fault (List Attribute)} (before : Overflows first)
    (rest : ∀ a, Adds (f a) n) : Adds (first >>= f) n := Meets.bind before rest

/-- The attributes of two steps are added. -/
theorem append (first : Adds x m) (second : Adds y n) :
    Adds (do return (← x) ++ (← y)) (m + n) := by
  refine Meets.bind first fun as => Meets.step (persistent as m) second fun bs => ?_
  refine Meets.pure fun p found => ⟨fun a mem => ?_, ?_⟩
  · exact (List.mem_append.mp mem).elim (found.2.1 a) (found.1.1 a)
  · rw [List.length_append]
    exact Nat.add_le_add found.2.2 found.1.2

end Adds

/-- At most one is added where it depends on something. -/
theorem adds_attributeIf (isNeeded : Bool) {c : Content} (other : c.name ≠ "Code") :
    Adds (attributeIf isNeeded c) 1 := by
  rw [attributeIf]
  split
  · exact Adds.one c other
  · exact Adds.nothing

/-- Annotations make up to two attributes. -/
theorem adds_annotationAttributes (annotations : List Dalvik.Annotation) :
    Adds (annotationAttributes annotations) 2 :=
  Adds.after (overflows_split annotations) fun _ =>
    (adds_attributeIf _ (by simp [Content.name])).append (adds_attributeIf _ (by simp [Content.name]))

theorem adds_parameterAttributes (parameters : List (List Dalvik.Annotation)) :
    Adds (parameterAttributes parameters) 2 :=
  Adds.after (Overflows.mapM overflows_split parameters) fun _ =>
    (adds_attributeIf _ (by simp [Content.name])).append (adds_attributeIf _ (by simp [Content.name]))

/-- A signature makes one. -/
theorem adds_signatureAttributes (annotations : List Dalvik.Annotation) :
    Adds (signatureAttributes annotations) 1 := by
  rw [signatureAttributes]
  split
  · exact Adds.nothing
  · exact Adds.after (Overflows.utf8 _) fun _ => Adds.one _ (by simp [Content.name])

/-- Together they make up to three. -/
theorem adds_commonAttributes (annotations : List Dalvik.Annotation) :
    Adds (commonAttributes annotations) 3 :=
  (adds_signatureAttributes annotations).append (adds_annotationAttributes annotations)

end StubJar.Translation
