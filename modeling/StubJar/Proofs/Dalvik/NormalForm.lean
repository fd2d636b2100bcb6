import StubJar.Container.Hierarchy
import StubJar.Proofs.Order.Sorting
import StubJar.Text.Utf16

/-!
# The normal form of a file

A container fixes the order of almost everything, so a file that is written
and read back comes back in one arrangement, its normal form:

- classes stand behind their parents (`File.inOrder`);
- static fields stand before instance fields, direct methods before virtual
  ones, and each group is sorted by the texts of its references;
- annotations of a set are sorted by type and their elements by name, at every
  depth, items of one key in the order they came in;
- initial values belong to static fields only, and a static field in front of
  one with an initial value has one itself (`fillInitials`).

All texts are compared by their UTF-16 units. Everything else is kept.
-/

namespace StubJar.Dalvik

open StubJar.Order StubJar.Text

/-! ## The texts of references -/

/-- The keys of texts that are compared one after another. -/
def keysOf (texts : List String) : List Key := texts.map units

/-- The texts by which prototypes are ordered: the result, then the
parameters. -/
def Prototype.texts (q : Prototype) : List String := (q.result :: q.parameters).map Descriptor.text

/-- The texts by which fields are ordered: class, name, type. -/
def FieldRef.texts (f : FieldRef) : List String := [f.owner.text, f.name, f.type.text]

/-- The texts by which methods are ordered: class, name, result,
parameters. -/
def MethodRef.texts (m : MethodRef) : List String := m.owner.text :: m.name :: m.prototype.texts

/-! ## Values and annotations -/

/-- Elements in the order of their names. -/
def byName (elements : List (String × Value)) : List (String × Value) :=
  sortOn (fun e => units e.1) elements

mutual

/-- A value in which the elements of annotations are in order. -/
def Value.normal : Value → Value
  | .array items => .array (Value.allNormal items)
  | .nested d elements => .nested d (byName (Value.elementsNormal elements))
  | .byte v => .byte v
  | .short v => .short v
  | .char u => .char u
  | .int v => .int v
  | .long v => .long v
  | .float bits => .float bits
  | .double bits => .double bits
  | .methodType p => .methodType p
  | .methodHandle h => .methodHandle h
  | .string s => .string s
  | .type d => .type d
  | .field f => .field f
  | .method m => .method m
  | .enum f => .enum f
  | .null => .null
  | .boolean b => .boolean b

/-- The normal forms of a list of values. -/
def Value.allNormal : List Value → List Value
  | [] => []
  | v :: vs => v.normal :: Value.allNormal vs

/-- The elements with the normal forms of their values, in the order they came
in. -/
def Value.elementsNormal : List (String × Value) → List (String × Value)
  | [] => []
  | (name, v) :: elements => (name, v.normal) :: Value.elementsNormal elements

end

/-- The normal forms of values are made one by one. -/
theorem Value.allNormal_eq (vs : List Value) : Value.allNormal vs = vs.map Value.normal := by
  induction vs with
  | nil => rfl
  | cons v vs ih => rw [Value.allNormal, ih, List.map_cons]

/-- So are those of elements, whose names stay. -/
theorem Value.elementsNormal_eq (elements : List (String × Value)) :
    Value.elementsNormal elements = elements.map fun e => (e.1, e.2.normal) := by
  induction elements with
  | nil => rfl
  | cons e elements ih => rw [Value.elementsNormal, ih, List.map_cons]

/-- Elements can be sorted before or after that. -/
theorem byName_normal (elements : List (String × Value)) :
    byName (Value.elementsNormal elements) = (byName elements).map fun e => (e.1, e.2.normal) := by
  rw [Value.elementsNormal_eq, byName, byName, ← map_sortOn (fun e => units e.1)]
  intro a _ b _
  rfl

/-- Sorting by names loses nothing. -/
theorem mem_byName {elements : List (String × Value)} {e : String × Value} :
    e ∈ byName elements ↔ e ∈ elements := mem_sortOn

/-- Elements that are sorted stay where they are. -/
theorem byName_byName (elements : List (String × Value)) :
    byName (byName elements) = byName elements := sortOn_sortOn _ elements

/-- An annotation with its elements in order. -/
def Annotation.normal (a : Annotation) : Annotation :=
  { a with elements := byName (Value.elementsNormal a.elements) }

/-- The annotations of a set in the order of their types. -/
def normalSet (annotations : List Annotation) : List Annotation :=
  sortOn (fun a => units a.type.text) (annotations.map Annotation.normal)

/-! ## Members -/

/-- A field with its annotations in order. -/
def Field.normal (f : Field) : Field :=
  { f with initial := f.initial.map Value.normal, annotations := normalSet f.annotations }

/-- A method with its annotations in order. -/
def Method.normal (m : Method) : Method :=
  { m with
    annotations := normalSet m.annotations
    parameterAnnotations := m.parameterAnnotations.map normalSet }

/-- Gives the default of its type to every field that has no initial value and
stands in front of one that has. -/
def fillInitials : List Field → List Field
  | [] => []
  | f :: fields =>
    let filled :=
      if (f :: fields).any (·.initial.isSome) then some (f.initial.getD (Value.default f.ref.type))
      else none
    { f with initial := filled } :: fillInitials fields

/-- Fields in the order of their references. -/
def inFieldOrder (fields : List Field) : List Field :=
  sortOnKeys (fun f => keysOf f.ref.texts) fields

/-- Methods in the order of their references. -/
def inMethodOrder (methods : List Method) : List Method :=
  sortOnKeys (fun m => keysOf m.ref.texts) methods

/-- What leaves the references alone leaves the order of fields alone. -/
theorem inFieldOrder_map {g : Field → Field} (same : ∀ x, (g x).ref = x.ref) (fields : List Field) :
    (inFieldOrder fields).map g = inFieldOrder (fields.map g) :=
  List.map_mergeSort fun x _ y _ => by simp only [same x, same y]

/-- Methods that keep their references keep their order. -/
theorem inMethodOrder_map {g : Method → Method} (same : ∀ x, (g x).ref = x.ref)
    (methods : List Method) : (inMethodOrder methods).map g = inMethodOrder (methods.map g) :=
  List.map_mergeSort fun x _ y _ => by simp only [same x, same y]

/-- Sorting loses no field. -/
theorem mem_inFieldOrder {fields : List Field} {x : Field} :
    x ∈ inFieldOrder fields ↔ x ∈ fields := (sortOnKeys_perm _ fields).mem_iff

/-- It loses no method. -/
theorem mem_inMethodOrder {methods : List Method} {x : Method} :
    x ∈ inMethodOrder methods ↔ x ∈ methods := (sortOnKeys_perm _ methods).mem_iff

/-- Fields that are kept and sorted were there before. -/
theorem mem_of_mem_inFieldOrder {keep : Field → Bool} {fields : List Field} {x : Field}
    (hx : x ∈ inFieldOrder (fields.filter keep)) : x ∈ fields :=
  (List.mem_filter.mp (mem_inFieldOrder.mp hx)).1

theorem mem_of_mem_inMethodOrder {keep : Method → Bool} {methods : List Method} {x : Method}
    (hx : x ∈ inMethodOrder (methods.filter keep)) : x ∈ methods :=
  (List.mem_filter.mp (mem_inMethodOrder.mp hx)).1

/-- The fields of a class: the static ones with their initial values, then
those of the instances without any. -/
def normalFields (fields : List Field) : List Field :=
  fillInitials (inFieldOrder ((fields.filter Field.isStatic).map Field.normal))
    ++ (inFieldOrder ((fields.filter (!·.isStatic)).map Field.normal)).map
      ({ · with initial := none })

/-- The methods of a class: the direct ones, then the virtual ones. -/
def normalMethods (methods : List Method) : List Method :=
  inMethodOrder ((methods.filter (·.flags.isDirect)).map Method.normal)
    ++ inMethodOrder ((methods.filter (!·.flags.isDirect)).map Method.normal)

/-- The normal forms of methods are listed in another order. -/
theorem normalMethods_perm (methods : List Method) :
    (normalMethods methods).Perm (methods.map Method.normal) := by
  have groups : (normalMethods methods).Perm _ :=
    (sortOnKeys_perm _ _).append (sortOnKeys_perm _ _)
  refine groups.trans ?_
  rw [← List.map_append]
  exact (List.filter_append_perm _ methods).map _

/-! ## What is in normal form already -/

mutual

/-- The normal form of a value is its own. -/
theorem Value.normal_normal (v : Value) : v.normal.normal = v.normal := by
  cases v with
  | array items => rw [Value.normal, Value.normal, Value.allNormal_allNormal items]
  | nested d elements =>
    -- Sorting leaves the normal forms of the values alone, and they are in order already.
    have same : byName (Value.elementsNormal (byName (Value.elementsNormal elements)))
        = byName (Value.elementsNormal elements) := by
      rw [byName_normal, byName_byName, ← byName_normal, Value.elementsNormal_elementsNormal elements]
    rw [Value.normal, Value.normal, same]
  | _ => rfl

theorem Value.allNormal_allNormal (vs : List Value) :
    Value.allNormal (Value.allNormal vs) = Value.allNormal vs := by
  cases vs with
  | nil => rfl
  | cons v vs =>
    rw [Value.allNormal, Value.allNormal, Value.normal_normal v, Value.allNormal_allNormal vs]

theorem Value.elementsNormal_elementsNormal (elements : List (String × Value)) :
    Value.elementsNormal (Value.elementsNormal elements) = Value.elementsNormal elements := by
  cases elements with
  | nil => rfl
  | cons e elements =>
    rw [Value.elementsNormal, Value.elementsNormal, Value.normal_normal e.2,
      Value.elementsNormal_elementsNormal elements]

end

theorem Annotation.normal_normal (a : Annotation) : a.normal.normal = a.normal := by
  have same : byName (Value.elementsNormal (byName (Value.elementsNormal a.elements)))
      = byName (Value.elementsNormal a.elements) := by
    rw [byName_normal, byName_byName, ← byName_normal, Value.elementsNormal_elementsNormal]
  simp only [same, Annotation.normal]

/-- A set can be sorted before its annotations get their normal forms. -/
theorem normalSet_eq (annotations : List Annotation) :
    normalSet annotations
      = (sortOn (fun a => units a.type.text) annotations).map Annotation.normal := by
  rw [normalSet, map_sortOn (fun a : Annotation => units a.type.text)]
  exact fun _ _ _ _ => rfl

/-- The normal form of a set is its own. -/
theorem normalSet_normalSet (annotations : List Annotation) :
    normalSet (normalSet annotations) = normalSet annotations := by
  have again : (normalSet annotations).map Annotation.normal = normalSet annotations := by
    rw [normalSet_eq, List.map_map]
    exact List.map_congr_left fun a _ => Annotation.normal_normal a
  rw [normalSet, again, normalSet, sortOn_sortOn]

@[simp] theorem normalSet_nil : normalSet [] = [] := by rw [normalSet, List.map_nil, sortOn_nil]

theorem normalMethods_nil : normalMethods [] = [] := by simp [normalMethods, inMethodOrder, sortOnKeys]

theorem Method.normal_normal (m : Method) : m.normal.normal = m.normal := by
  have sets : (m.parameterAnnotations.map normalSet).map normalSet
      = m.parameterAnnotations.map normalSet := by
    rw [List.map_map]
    exact List.map_congr_left fun annotations _ => normalSet_normalSet annotations
  simp only [Method.normal, normalSet_normalSet, sets]

/-- Fields of the references of fields in order are in order. -/
theorem inFieldOrder_of_refs {xs ys : List Field}
    (same : ys.map Field.ref = (inFieldOrder xs).map Field.ref) : inFieldOrder ys = ys := by
  have refs : (ys.map Field.ref).Pairwise fun r s => keysLE (keysOf r.texts) (keysOf s.texts) = true := by
    rw [same]
    exact List.pairwise_map.mpr (sortOnKeys_ascending _ xs)
  exact sortOnKeys_of_ascending (List.pairwise_map.mp refs)

/-- So are methods. -/
theorem inMethodOrder_of_refs {xs ys : List Method}
    (same : ys.map Method.ref = (inMethodOrder xs).map Method.ref) : inMethodOrder ys = ys := by
  have refs : (ys.map Method.ref).Pairwise fun r s => keysLE (keysOf r.texts) (keysOf s.texts) = true := by
    rw [same]
    exact List.pairwise_map.mpr (sortOnKeys_ascending _ xs)
  exact sortOnKeys_of_ascending (List.pairwise_map.mp refs)

section Groups

variable (methods : List Method)

/-- A group of methods in normal form is picked out as a whole. -/
theorem filter_inMethodOrder (keep : Method → Bool) (same : ∀ m : Method, keep m.normal = keep m) :
    (inMethodOrder ((methods.filter keep).map Method.normal)).filter keep
      = inMethodOrder ((methods.filter keep).map Method.normal) := by
  refine List.filter_eq_self.mpr fun m hm => ?_
  obtain ⟨n, hn, rfl⟩ := List.mem_map.mp (mem_inMethodOrder.mp hm)
  rw [same]
  exact (List.mem_filter.mp hn).2

/-- Methods of one kind have none of the other. -/
theorem filter_inMethodOrder_none (keep drop : Method → Bool)
    (same : ∀ m : Method, drop m.normal = drop m)
    (disjoint : ∀ m, keep m = true → drop m = false) :
    (inMethodOrder ((methods.filter keep).map Method.normal)).filter drop = [] := by
  refine List.filter_eq_nil_iff.mpr fun m hm => ?_
  obtain ⟨n, hn, rfl⟩ := List.mem_map.mp (mem_inMethodOrder.mp hm)
  rw [same, disjoint n (List.mem_filter.mp hn).2]
  exact Bool.false_ne_true

/-- The direct methods of those in normal form are the first group of them. -/
theorem directs_normalMethods :
    (normalMethods methods).filter (·.flags.isDirect)
      = inMethodOrder ((methods.filter (·.flags.isDirect)).map Method.normal) := by
  rw [normalMethods, List.filter_append, filter_inMethodOrder _ _ fun _ => rfl,
    filter_inMethodOrder_none _ _ _ (fun _ => rfl) fun m hm => by simpa using hm, List.append_nil]

/-- The virtual methods are the second group. -/
theorem virtuals_normalMethods :
    (normalMethods methods).filter (!·.flags.isDirect)
      = inMethodOrder ((methods.filter (!·.flags.isDirect)).map Method.normal) := by
  have none := filter_inMethodOrder_none methods (·.flags.isDirect) (!·.flags.isDirect)
    (fun _ => rfl) fun m hm => by simpa using hm
  rw [normalMethods, List.filter_append, none, filter_inMethodOrder _ _ fun _ => rfl,
    List.nil_append]

end Groups

/-- The normal forms of the methods of a class are their own. -/
theorem normalMethods_normalMethods (methods : List Method) :
    normalMethods (normalMethods methods) = normalMethods methods := by
  -- Each of the two groups is picked out again, is in order and is in normal form.
  have again (methods : List Method) :
      inMethodOrder ((inMethodOrder (methods.map Method.normal)).map Method.normal)
        = inMethodOrder (methods.map Method.normal) := by
    have normal : (inMethodOrder (methods.map Method.normal)).map Method.normal
        = inMethodOrder (methods.map Method.normal) := by
      rw [inMethodOrder_map (g := Method.normal) fun _ => rfl, List.map_map]
      exact congrArg inMethodOrder (List.map_congr_left fun m _ => Method.normal_normal m)
    rw [normal]
    exact inMethodOrder_of_refs rfl
  rw [normalMethods, directs_normalMethods, virtuals_normalMethods, again, again, ← normalMethods]

/-! ## Classes and files -/

/-- A class with its members and its annotations in order. -/
def ClassDecl.normal (c : ClassDecl) : ClassDecl :=
  { c with
    annotations := normalSet c.annotations
    fields := normalFields c.fields
    methods := normalMethods c.methods }

mutual

/-- A value and the values inside it. -/
def Value.parts : Value → List Value
  | .array items => .array items :: Value.allParts items
  | .nested d elements => .nested d elements :: Value.elementParts elements
  | v => [v]

/-- The parts of the values of a list. -/
def Value.allParts : List Value → List Value
  | [] => []
  | v :: vs => v.parts ++ Value.allParts vs

/-- The parts of the values of elements. -/
def Value.elementParts : List (String × Value) → List Value
  | [] => []
  | (_, v) :: elements => v.parts ++ Value.elementParts elements

end

/-- The parts of an array are those of its items. -/
theorem Value.allParts_eq (vs : List Value) : Value.allParts vs = vs.flatMap Value.parts := by
  induction vs with
  | nil => rfl
  | cons v vs ih => rw [Value.allParts, ih, List.flatMap_cons]

/-- Those of an annotation are those of the values of its elements. -/
theorem Value.elementParts_eq (elements : List (String × Value)) :
    Value.elementParts elements = elements.flatMap fun e => e.2.parts := by
  induction elements with
  | nil => rfl
  | cons e elements ih => rw [Value.elementParts, ih, List.flatMap_cons]

/-- How many items or elements there are in a value. -/
def Value.count : Value → Nat
  | .array items => items.length
  | .nested _ elements => elements.length
  | _ => 0

/-- The parts of the values of an annotation. -/
def Annotation.values (a : Annotation) : List Value := Value.elementParts a.elements

/-- The values of a class with their parts: those of its annotations and of
the annotations of its members, and the initial values of its fields. -/
def ClassDecl.values (c : ClassDecl) : List Value :=
  c.annotations.flatMap Annotation.values
    ++ c.fields.flatMap (fun f =>
      f.initial.elim [] Value.parts ++ f.annotations.flatMap Annotation.values)
    ++ c.methods.flatMap fun m =>
      (m.annotations ++ m.parameterAnnotations.flatten).flatMap Annotation.values

/-- The values of a file with their parts. -/
def File.values (f : File) : List Value := f.classes.flatMap ClassDecl.values

/-- Whether the value is a method type or a method handle. -/
def Value.isHandle : Value → Bool
  | .methodType _ | .methodHandle _ => true
  | _ => false

/-- Whether a value of the file is or contains a method type or a method
handle. -/
def File.usesHandles (f : File) : Bool := f.values.any Value.isHandle

/-- The kind of the handle goes with what its member is. -/
def MethodHandle.Agrees (h : MethodHandle) : Prop :=
  match h.member with
  | .field _ => h.kind.isFieldAccessor = true
  | .method _ => h.kind.isFieldAccessor = false

/-- Every bit of the flags of a class and of its members has a meaning. -/
structure ClassDecl.FlagsKnown (c : ClassDecl) : Prop where
  own : c.flags.isKnown = true
  fields : ∀ f ∈ c.fields, f.flags.isKnown = true
  methods : ∀ m ∈ c.methods, m.flags.isKnown = true

/-- No field is listed twice in the class. -/
def ClassDecl.FieldsDistinct (c : ClassDecl) : Prop := (c.fields.map Field.ref).Nodup

/-- No method is listed twice in the file. -/
def File.MethodsDistinct (f : File) : Prop :=
  ((f.classes.flatMap ClassDecl.methods).map Method.ref).Nodup

/-- What a container can hold as it is said: a known version, flags with a meaning,
handles whose kinds go with their members, and no member listed twice. -/
structure File.Regular (f : File) : Prop where
  known : 35 ≤ f.version ∧ f.version ≤ 39
  flags : ∀ c ∈ f.classes, c.FlagsKnown
  kinds : ∀ h, .methodHandle h ∈ f.values → h.Agrees
  methods : f.MethodsDistinct
  fields : ∀ c ∈ f.classes, c.FieldsDistinct

instance (h : MethodHandle) : Decidable h.Agrees :=
  match h with
  | ⟨kind, .field _⟩ => inferInstanceAs (Decidable (kind.isFieldAccessor = true))
  | ⟨kind, .method _⟩ => inferInstanceAs (Decidable (kind.isFieldAccessor = false))

/-- The handle that a value is. -/
def Value.handle? : Value → Option MethodHandle
  | .methodHandle h => some h
  | _ => none

/-- The handle of a value is the one that it is. -/
theorem Value.handle?_eq_some {v : Value} {h : MethodHandle} :
    v.handle? = some h ↔ v = .methodHandle h := by
  cases v
  case methodHandle => simp only [Value.handle?, Option.some.injEq, Value.methodHandle.injEq]
  all_goals simp only [Value.handle?, reduceCtorEq]

/-- Whether a file is regular can be found out from what it lists. -/
theorem File.regular_iff {f : File} : f.Regular ↔ (35 ≤ f.version ∧ f.version ≤ 39)
    ∧ (∀ c ∈ f.classes, c.flags.isKnown = true ∧ (∀ x ∈ c.fields, x.flags.isKnown = true)
      ∧ ∀ x ∈ c.methods, x.flags.isKnown = true)
    ∧ (∀ h ∈ f.values.filterMap Value.handle?, h.Agrees)
    ∧ ((f.classes.flatMap ClassDecl.methods).map Method.ref).Nodup
    ∧ ∀ c ∈ f.classes, (c.fields.map Field.ref).Nodup := by
  simp only [List.mem_filterMap, Value.handle?_eq_some, exists_eq_right]
  constructor
  · rintro ⟨known, flags, kinds, methods, fields⟩
    exact ⟨known, fun c hc => ⟨(flags c hc).own, (flags c hc).fields, (flags c hc).methods⟩, kinds,
      methods, fields⟩
  · rintro ⟨known, flags, kinds, methods, fields⟩
    exact ⟨known, fun c hc => ⟨(flags c hc).1, (flags c hc).2.1, (flags c hc).2.2⟩, kinds, methods,
      fields⟩

instance (f : File) : Decidable f.Regular := decidable_of_iff _ File.regular_iff.symm

/-- The classes, each behind its parents. -/
def File.inOrder (f : File) : List ClassDecl :=
  match Container.Hierarchy.order f.classes with
  | .ok positions => positions.filterMap (f.classes[·]?)
  | .error _ => []

/-- The arrangement in which a file is read back. -/
def File.normal (f : File) : File :=
  ⟨if f.usesHandles then max f.version File.handleVersion else f.version,
    f.inOrder.map ClassDecl.normal⟩

end StubJar.Dalvik
