import Mathlib.Data.List.Nodup
import StubJar.Proofs.Dalvik.Mentions
import StubJar.Proofs.Success
import StubJar.Proofs.Text.ModifiedUtf8

/-!
# Rearranged files

Nothing depends on the order in which a class lists its fields and its methods, nor on
that of the annotations of a set or the elements of an annotation, as long as each of
them has a name of its own. `File.Rearranged f g` says that `g` lists such things in
another order than `f`, at any depth; what has an order, such as the items of an array,
the sets of the parameters or the classes, keeps it.

All that the rest of the theory has to know is that rearranged parts have one normal form
(`Value.Rearranged.normal_eq` and its siblings). So two rearranged classes have the same
parts (`ClassDecl.SameParts`) and mention the same things.
-/

namespace StubJar.Dalvik

open StubJar.Order StubJar.Text

/-! ## Lists in another order -/

/-- The same list, or the same items in any order if no two of them share a name. -/
def Reordered {α β : Type} (name : α → β) (xs ys : List α) : Prop :=
  xs = ys ∨ (xs.map name).Nodup ∧ xs.Perm ys

namespace Reordered

variable {α β γ : Type} {name : α → β} {xs ys : List α}

/-- What is rearranged by names stays so with the names. -/
theorem map {name' : γ → β} {g : α → γ} (h : Reordered name xs ys)
    (same : ∀ x, name' (g x) = name x) : Reordered name' (xs.map g) (ys.map g) := by
  refine h.imp (congrArg (List.map g)) fun ⟨distinct, perm⟩ => ⟨?_, perm.map g⟩
  have names : (xs.map g).map name' = xs.map name := by
    rw [List.map_map]
    exact List.map_congr_left fun x _ => same x
  rwa [names]

/-- Sorting by names forgets the order. -/
theorem sortOn_eq {key : β → Key} (h : Reordered name xs ys)
    (injective : ∀ a b, key a = key b → a = b) :
    sortOn (fun x => key (name x)) xs = sortOn (fun x => key (name x)) ys := by
  rcases h with rfl | ⟨distinct, perm⟩
  · rfl
  · refine sortOn_eq_of_perm perm fun x hx y hy same => ?_
    exact List.inj_on_of_nodup_map distinct hx hy (injective _ _ same)

end Reordered

/-! ## Values -/

mutual

/-- The annotations in the value may list their elements in another order. -/
inductive Value.Rearranged : Value → Value → Prop
  | refl (v : Value) : Value.Rearranged v v
  | array {vs ws : List Value} (items : Value.AllRearranged vs ws) :
      Value.Rearranged (.array vs) (.array ws)
  | nested {d : Descriptor} {es es' fs : List (String × Value)}
      (values : Value.ElementsRearranged es es') (order : Reordered Prod.fst es' fs) :
      Value.Rearranged (.nested d es) (.nested d fs)

/-- One value after another is rearranged. -/
inductive Value.AllRearranged : List Value → List Value → Prop
  | nil : Value.AllRearranged [] []
  | cons {v w : Value} {vs ws : List Value} (head : Value.Rearranged v w)
      (tail : Value.AllRearranged vs ws) : Value.AllRearranged (v :: vs) (w :: ws)

/-- The value of one element after another is rearranged. -/
inductive Value.ElementsRearranged : List (String × Value) → List (String × Value) → Prop
  | nil : Value.ElementsRearranged [] []
  | cons {name : String} {v w : Value} {es fs : List (String × Value)}
      (head : Value.Rearranged v w) (tail : Value.ElementsRearranged es fs) :
      Value.ElementsRearranged ((name, v) :: es) ((name, w) :: fs)

end

/-- Elements that stay as they are are rearranged. -/
theorem Value.ElementsRearranged.refl (es : List (String × Value)) : Value.ElementsRearranged es es := by
  induction es with
  | nil => exact .nil
  | cons e es ih => exact .cons (.refl e.2) ih

/-- Sorting by names undoes the rearrangement. -/
theorem byName_of_reordered {es fs : List (String × Value)} (h : Reordered Prod.fst es fs) :
    byName (Value.elementsNormal es) = byName (Value.elementsNormal fs) := by
  rw [Value.elementsNormal_eq, Value.elementsNormal_eq]
  have renamed : Reordered Prod.fst (es.map fun e => (e.1, e.2.normal)) (fs.map fun e => (e.1, e.2.normal)) :=
    h.map fun _ => rfl
  exact renamed.sortOn_eq fun _ _ => units_injective

mutual

/-- Values that are rearranged have the same normal form. -/
theorem Value.Rearranged.normal_eq {v w : Value} (h : v.Rearranged w) : v.normal = w.normal := by
  cases h with
  | refl => rfl
  | array items => rw [Value.normal, Value.normal, items.normal_eq]
  | nested values order =>
    rw [Value.normal, Value.normal, values.normal_eq, byName_of_reordered order]

theorem Value.AllRearranged.normal_eq {vs ws : List Value} (h : Value.AllRearranged vs ws) :
    Value.allNormal vs = Value.allNormal ws := by
  cases h with
  | nil => rfl
  | cons head tail => rw [Value.allNormal, Value.allNormal, head.normal_eq, tail.normal_eq]

theorem Value.ElementsRearranged.normal_eq {es fs : List (String × Value)}
    (h : Value.ElementsRearranged es fs) : Value.elementsNormal es = Value.elementsNormal fs := by
  cases h with
  | nil => rfl
  | cons head tail =>
    rw [Value.elementsNormal, Value.elementsNormal, head.normal_eq, tail.normal_eq]

end

/-! ## Annotations -/

/-- The elements of the annotation may be in another order, at any depth. -/
structure Annotation.Rearranged (a b : Annotation) : Prop where
  visibility : a.visibility = b.visibility
  type : a.type = b.type
  elements : ∃ es, Value.ElementsRearranged a.elements es ∧ Reordered Prod.fst es b.elements

theorem Annotation.Rearranged.normal_eq {a b : Annotation} (h : a.Rearranged b) :
    a.normal = b.normal := by
  obtain ⟨es, values, order⟩ := h.elements
  unfold Annotation.normal
  rw [h.visibility, h.type, values.normal_eq, byName_of_reordered order]

theorem Annotation.Rearranged.refl (a : Annotation) : a.Rearranged a :=
  ⟨rfl, rfl, a.elements, .refl a.elements, Or.inl rfl⟩

/-- The annotations of a set may be in another order, and their elements too. -/
def SetRearranged (as bs : List Annotation) : Prop :=
  ∃ as', List.Forall₂ Annotation.Rearranged as as' ∧ Reordered Annotation.type as' bs

theorem SetRearranged.refl (as : List Annotation) : SetRearranged as as :=
  ⟨as, List.forall₂_same.mpr fun a _ => .refl a, Or.inl rfl⟩

theorem SetRearranged.normal_eq {as bs : List Annotation} (h : SetRearranged as bs) :
    normalSet as = normalSet bs := by
  obtain ⟨as', each, order⟩ := h
  have forms := map_eq_of_forall₂ each fun _ _ => Annotation.Rearranged.normal_eq
  have renamed : Reordered Annotation.type (as'.map Annotation.normal) (bs.map Annotation.normal) :=
    order.map fun _ => rfl
  rw [normalSet, normalSet, forms]
  exact renamed.sortOn_eq fun _ _ same => congrArg Descriptor.mk (units_injective same)

/-! ## Members -/

/-- The annotations in the initial value and those of the field may be in another order. -/
structure Field.Rearranged (x y : Field) : Prop where
  ref : x.ref = y.ref
  flags : x.flags = y.flags
  initial : Option.Rel Value.Rearranged x.initial y.initial
  annotations : SetRearranged x.annotations y.annotations

theorem Field.Rearranged.refl (x : Field) : x.Rearranged x where
  ref := rfl
  flags := rfl
  initial := by
    cases x.initial with
    | none => exact .none
    | some v => exact .some (.refl v)
  annotations := .refl x.annotations

theorem Field.Rearranged.normal_eq {x y : Field} (h : x.Rearranged y) : x.normal = y.normal := by
  have initial : x.initial.map Value.normal = y.initial.map Value.normal := by
    have given := h.initial
    generalize x.initial = v, y.initial = w at given
    cases given with
    | none => rfl
    | some value => exact congrArg some value.normal_eq
  rw [Field.normal, Field.normal, h.ref, h.flags, initial, h.annotations.normal_eq]

/-- The annotations of the method and those of each parameter may be in another order; the
sets of the parameters stay where they are. -/
structure Method.Rearranged (x y : Method) : Prop where
  ref : x.ref = y.ref
  flags : x.flags = y.flags
  annotations : SetRearranged x.annotations y.annotations
  parameters : List.Forall₂ SetRearranged x.parameterAnnotations y.parameterAnnotations
  body : x.body = y.body

theorem Method.Rearranged.normal_eq {x y : Method} (h : x.Rearranged y) : x.normal = y.normal := by
  have parameters := map_eq_of_forall₂ h.parameters fun _ _ => SetRearranged.normal_eq
  rw [Method.normal, Method.normal, h.ref, h.flags, h.annotations.normal_eq, parameters, h.body]

section Mentions

variable {m : Mention}

/-- The normal form of a field mentions what the field does. -/
theorem Field.mem_mentions_normal (x : Field) : m ∈ x.normal.mentions ↔ m ∈ x.mentions := by
  have initial : m ∈ (x.initial.map Value.normal).elim [] Value.mentions
      ↔ m ∈ x.initial.elim [] Value.mentions := by
    cases x.initial with
    | none => exact Iff.rfl
    | some v => exact Value.mem_mentions_normal v
  rw [Field.mentions, Field.mentions, List.mem_cons, List.mem_cons, List.mem_append, List.mem_append]
  exact or_congr_right (or_congr initial (mem_mentions_normalSet x.annotations))

/-- Parts of the same normal forms mention the same, if each mentions what its normal form
does. -/
theorem mem_mentions_of_perm {α : Type} {normal : α → α} {mentions : α → List Mention} {xs ys : List α}
    (each : ∀ x, m ∈ mentions (normal x) ↔ m ∈ mentions x)
    (perm : (xs.map normal).Perm (ys.map normal)) : m ∈ xs.flatMap mentions ↔ m ∈ ys.flatMap mentions := by
  have forms (zs : List α) : m ∈ (zs.map normal).flatMap mentions ↔ m ∈ zs.flatMap mentions := by
    rw [List.flatMap_map, List.mem_flatMap, List.mem_flatMap]
    exact exists_congr fun z => and_congr_right fun _ => each z
  rw [← forms xs, (perm.flatMap_right mentions).mem_iff, forms ys]

end Mentions

/-! ## Classes -/

/-- The members of the class and its annotations may be in another order, and so may
theirs. -/
structure ClassDecl.Rearranged (c d : ClassDecl) : Prop where
  type : c.type = d.type
  flags : c.flags = d.flags
  superclass : c.superclass = d.superclass
  interfaces : c.interfaces = d.interfaces
  sourceFile : c.sourceFile = d.sourceFile
  annotations : SetRearranged c.annotations d.annotations
  fields : ∃ xs, List.Forall₂ Field.Rearranged c.fields xs ∧ xs.Perm d.fields
  methods : ∃ xs, List.Forall₂ Method.Rearranged c.methods xs ∧ xs.Perm d.methods

/-- Class after class is rearranged; the classes stay where they are. -/
structure File.Rearranged (f g : File) : Prop where
  version : f.version = g.version
  classes : List.Forall₂ ClassDecl.Rearranged f.classes g.classes

/-- No field and no method is listed twice in the class. -/
structure ClassDecl.MembersDistinct (c : ClassDecl) : Prop where
  fields : c.FieldsDistinct
  methods : (c.methods.map Method.ref).Nodup

/-- Two classes that differ in the order of their parts at most. -/
structure ClassDecl.SameParts (c d : ClassDecl) : Prop where
  type : c.type = d.type
  flags : c.flags = d.flags
  superclass : c.superclass = d.superclass
  interfaces : c.interfaces = d.interfaces
  sourceFile : c.sourceFile = d.sourceFile
  annotations : normalSet c.annotations = normalSet d.annotations
  fields : (c.fields.map Field.normal).Perm (d.fields.map Field.normal)
  methods : (c.methods.map Method.normal).Perm (d.methods.map Method.normal)

/-- Classes that are rearranged have the same parts. -/
theorem ClassDecl.Rearranged.sameParts {c d : ClassDecl} (h : c.Rearranged d) : c.SameParts d where
  type := h.type
  flags := h.flags
  superclass := h.superclass
  interfaces := h.interfaces
  sourceFile := h.sourceFile
  annotations := h.annotations.normal_eq
  fields := by
    obtain ⟨xs, each, perm⟩ := h.fields
    rw [map_eq_of_forall₂ each fun _ _ => Field.Rearranged.normal_eq]
    exact perm.map _
  methods := by
    obtain ⟨xs, each, perm⟩ := h.methods
    rw [map_eq_of_forall₂ each fun _ _ => Method.Rearranged.normal_eq]
    exact perm.map _

namespace ClassDecl.SameParts

variable {c d : ClassDecl} {m : Mention}

/-- The other class has the same parts too. -/
theorem symm (h : c.SameParts d) : d.SameParts c where
  type := h.type.symm
  flags := h.flags.symm
  superclass := h.superclass.symm
  interfaces := h.interfaces.symm
  sourceFile := h.sourceFile.symm
  annotations := h.annotations.symm
  fields := h.fields.symm
  methods := h.methods.symm

/-- Classes with the same parts have the same parents. -/
theorem parents (h : c.SameParts d) : c.parents = d.parents := by
  rw [ClassDecl.parents, ClassDecl.parents, h.superclass, h.interfaces]

/-- The same is mentioned. -/
theorem mem_mentions (h : c.SameParts d) : m ∈ c.mentions ↔ m ∈ d.mentions := by
  have annotations : m ∈ c.annotations.flatMap Annotation.mentions
      ↔ m ∈ d.annotations.flatMap Annotation.mentions := by
    rw [← mem_mentions_normalSet, h.annotations, mem_mentions_normalSet]
  simp only [ClassDecl.mentions, List.mem_append, h.type, h.parents, h.sourceFile, annotations,
    mem_mentions_of_perm Field.mem_mentions_normal h.fields,
    mem_mentions_of_perm Method.mem_mentions_normal h.methods]

end ClassDecl.SameParts

/-- Two files whose classes differ in the order of their parts at most. -/
structure File.SameParts (f g : File) : Prop where
  version : f.version = g.version
  classes : List.Forall₂ ClassDecl.SameParts f.classes g.classes

/-- Files that are rearranged have the same parts. -/
theorem File.Rearranged.sameParts {f g : File} (h : f.Rearranged g) : f.SameParts g :=
  ⟨h.version, h.classes.imp fun _ _ => ClassDecl.Rearranged.sameParts⟩

namespace File.SameParts

variable {f g : File}

theorem symm (h : f.SameParts g) : g.SameParts f :=
  ⟨h.version.symm, h.classes.flip.imp fun _ _ => ClassDecl.SameParts.symm⟩

/-- They mention the same things. -/
theorem mem_mentions (h : f.SameParts g) (m : Mention) : m ∈ f.mentions ↔ m ∈ g.mentions := by
  rw [File.mentions, File.mentions]
  have classes := h.classes
  generalize f.classes = cs, g.classes = ds at classes
  induction classes with
  | nil => exact Iff.rfl
  | cons head _ ih =>
    rw [List.flatMap_cons, List.flatMap_cons, List.mem_append, List.mem_append]
    exact or_congr head.mem_mentions ih

end File.SameParts

end StubJar.Dalvik
