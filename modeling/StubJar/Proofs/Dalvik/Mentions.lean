import StubJar.Container.Mention
import StubJar.Proofs.Dalvik.NormalForm

/-!
# What normal forms mention

Putting things in order neither adds to what they mention nor takes away from it:
a value, an annotation, a set of annotations and the methods of a class mention the
same in their normal forms. So do fields, except that the initial value of a field
that is not static is mentioned although no container has room for it.
-/

namespace StubJar.Dalvik

open StubJar.Order StubJar.Text

variable {m : Mention}

/-- What a file mentions. -/
def File.mentions (f : File) : List Mention := f.classes.flatMap ClassDecl.mentions

/-! ## Values -/

/-- What values mention is what each of them does. -/
theorem Value.allMentions_eq (vs : List Value) :
    Value.allMentions vs = vs.flatMap Value.mentions := by
  induction vs with
  | nil => rfl
  | cons v vs ih => rw [Value.allMentions, ih, List.flatMap_cons]

/-- Elements mention their names and what their values do. -/
theorem Value.elementMentions_eq (elements : List (String × Value)) :
    Value.elementMentions elements = elements.flatMap fun e => .string e.1 :: e.2.mentions := by
  induction elements with
  | nil => rfl
  | cons e elements ih => rw [Value.elementMentions, ih, List.flatMap_cons, List.cons_append]

/-- The order of elements makes no difference. -/
theorem mem_elementMentions_byName {elements : List (String × Value)} :
    m ∈ Value.elementMentions (byName elements) ↔ m ∈ Value.elementMentions elements := by
  rw [Value.elementMentions_eq, Value.elementMentions_eq]
  exact ((sortOn_perm _ elements).flatMap_right _).mem_iff

mutual

/-- The normal form of a value mentions what the value does. -/
theorem Value.mem_mentions_normal (v : Value) : m ∈ v.normal.mentions ↔ m ∈ v.mentions := by
  cases v with
  | array items =>
    rw [Value.normal, Value.mentions, Value.mentions]
    exact Value.mem_allMentions_normal items
  | nested d elements =>
    rw [Value.normal, Value.mentions, Value.mentions, List.mem_cons, List.mem_cons,
      mem_elementMentions_byName]
    exact or_congr_right (Value.mem_elementMentions_normal elements)
  | _ => exact Iff.rfl

/-- So do those of the items of an array. -/
theorem Value.mem_allMentions_normal (vs : List Value) :
    m ∈ Value.allMentions (Value.allNormal vs) ↔ m ∈ Value.allMentions vs := by
  cases vs with
  | nil => exact Iff.rfl
  | cons v vs =>
    rw [Value.allNormal, Value.allMentions, Value.allMentions, List.mem_append, List.mem_append]
    exact or_congr (Value.mem_mentions_normal v) (Value.mem_allMentions_normal vs)

theorem Value.mem_elementMentions_normal (elements : List (String × Value)) :
    m ∈ Value.elementMentions (Value.elementsNormal elements) ↔ m ∈ Value.elementMentions elements := by
  cases elements with
  | nil => exact Iff.rfl
  | cons e elements =>
    rw [Value.elementsNormal, Value.elementMentions, Value.elementMentions, List.mem_cons,
      List.mem_cons, List.mem_append, List.mem_append]
    exact or_congr_right (or_congr (Value.mem_mentions_normal e.2)
      (Value.mem_elementMentions_normal elements))

end

/-! ## Annotations -/

theorem Annotation.mem_mentions_normal (a : Annotation) : m ∈ a.normal.mentions ↔ m ∈ a.mentions := by
  unfold Annotation.mentions
  rw [List.mem_cons, List.mem_cons]
  show _ ∨ m ∈ Value.elementMentions (byName (Value.elementsNormal a.elements)) ↔ _
  rw [mem_elementMentions_byName]
  exact or_congr_right (Value.mem_elementMentions_normal a.elements)

/-- The normal form of a set of annotations mentions what they do. -/
theorem mem_mentions_normalSet (annotations : List Annotation) :
    m ∈ (normalSet annotations).flatMap Annotation.mentions
      ↔ m ∈ annotations.flatMap Annotation.mentions := by
  have sorted := ((sortOn_perm (fun a : Annotation => units a.type.text)
    (annotations.map Annotation.normal)).flatMap_right Annotation.mentions).mem_iff (a := m)
  rw [normalSet, sorted, List.flatMap_map, List.mem_flatMap, List.mem_flatMap]
  exact exists_congr fun a => and_congr_right fun _ => Annotation.mem_mentions_normal a

/-! ## Methods -/

theorem Method.mem_mentions_normal (x : Method) : m ∈ x.normal.mentions ↔ m ∈ x.mentions := by
  have sets : m ∈ (x.parameterAnnotations.map normalSet).flatten.flatMap Annotation.mentions
      ↔ m ∈ x.parameterAnnotations.flatten.flatMap Annotation.mentions := by
    generalize x.parameterAnnotations = sets
    induction sets with
    | nil => exact Iff.rfl
    | cons set sets ih =>
      rw [List.map_cons, List.flatten_cons, List.flatten_cons, List.flatMap_append,
        List.flatMap_append, List.mem_append, List.mem_append]
      exact or_congr (mem_mentions_normalSet set) ih
  rw [Method.mentions, Method.mentions, List.mem_cons, List.mem_cons, List.mem_append, List.mem_append]
  exact or_congr_right (or_congr (mem_mentions_normalSet x.annotations) sets)

/-- So do those of all methods of a class. -/
theorem mem_mentions_normalMethods (methods : List Method) :
    m ∈ (normalMethods methods).flatMap Method.mentions ↔ m ∈ methods.flatMap Method.mentions := by
  rw [((normalMethods_perm methods).flatMap_right _).mem_iff, List.flatMap_map, List.mem_flatMap,
    List.mem_flatMap]
  exact exists_congr fun x => and_congr_right fun _ => Method.mem_mentions_normal x

/-! ## Parts of classes -/

section Parts

variable {c : ClassDecl}

/-- What an annotation mentions, its class does. -/
theorem ClassDecl.annotation_mentions {a : Annotation} (ha : a ∈ c.annotations) :
    a.mentions ⊆ c.mentions := by
  intro m hm
  simp only [ClassDecl.mentions, List.mem_append, List.mem_flatMap]
  exact Or.inl (Or.inl (Or.inr ⟨a, ha, hm⟩))

theorem ClassDecl.field_mentions {x : Field} (hx : x ∈ c.fields) : x.mentions ⊆ c.mentions := by
  intro m hm
  simp only [ClassDecl.mentions, List.mem_append, List.mem_flatMap]
  exact Or.inl (Or.inr ⟨x, hx, hm⟩)

theorem ClassDecl.method_mentions {x : Method} (hx : x ∈ c.methods) : x.mentions ⊆ c.mentions := by
  intro m hm
  simp only [ClassDecl.mentions, List.mem_append, List.mem_flatMap]
  exact Or.inr ⟨x, hx, hm⟩

end Parts

end StubJar.Dalvik
