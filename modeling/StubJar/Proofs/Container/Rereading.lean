import StubJar.Proofs.Container.Decoded

/-!
# Reading back what was read

`reread f order` is a file as it comes back from its container. It has its members
in order and every set of annotations at one owner only, so that coming back once
more changes nothing (`readClasses_reread`), it mentions nothing that the file does not
mention (`reread_mentions`), and its classes stand in the order of their hierarchy
(`order_reread`).
-/

namespace StubJar.Container

open StubJar.Dalvik StubJar.Order

/-- A file as it is read back, its classes in some order. -/
def reread (f : File) (order : List Nat) : File :=
  ⟨writtenVersion (poolOf f) f, readClasses f order⟩

/-! ## Fields -/

section HandOut

variable {noted noted' : FieldRef → List Annotation} {values values' : List Value}
  {fields : List Field} {x y : Field}

/-- Values are handed out to the fields in their order. -/
theorem handOut_refs (noted : FieldRef → List Annotation) (values : List Value)
    (fields : List Field) : (handOut noted values fields).map Field.ref = fields.map Field.ref := by
  induction fields generalizing noted values with
  | nil => rfl
  | cons x fields ih => rw [handOut, List.map_cons, List.map_cons, ih]

/-- What was handed out before makes no difference. -/
theorem handOut_handOut (noted noted' : FieldRef → List Annotation) (values values' : List Value)
    (fields : List Field) :
    handOut noted values (handOut noted' values' fields) = handOut noted values fields := by
  induction fields generalizing noted noted' values values' with
  | nil => rfl
  | cons x fields ih => rw [handOut, handOut, handOut, ih]

/-- A field keeps its flags, and takes what is noted for it or nothing. -/
theorem of_mem_handOut (mem : y ∈ handOut noted values fields) :
    (∃ x ∈ fields, y.ref = x.ref ∧ y.flags = x.flags)
      ∧ (∀ v, y.initial = some v → v ∈ values)
      ∧ (y.annotations = noted y.ref ∨ y.annotations = []) := by
  induction fields generalizing noted values with
  | nil => cases mem
  | cons x fields ih =>
    rcases List.mem_cons.mp mem with rfl | later
    · exact ⟨⟨x, List.mem_cons_self, rfl, rfl⟩, fun v => List.mem_of_head?, Or.inl rfl⟩
    · obtain ⟨⟨z, hz, same⟩, initial, annotations⟩ := ih later
      refine ⟨⟨z, List.mem_cons_of_mem _ hz, same⟩,
        fun v given => List.mem_of_mem_tail (initial v given), ?_⟩
      rw [without] at annotations
      split at annotations
      · exact Or.inr (annotations.elim id id)
      · exact annotations

/-- The first field of a reference takes what is noted for it. -/
theorem exists_mem_handOut (noted : FieldRef → List Annotation) (values : List Value)
    (mem : x ∈ fields) :
    ∃ y ∈ handOut noted values fields, y.ref = x.ref ∧ y.annotations = noted x.ref := by
  induction fields generalizing noted values with
  | nil => cases mem
  | cons z fields ih =>
    by_cases same : x.ref = z.ref
    · exact ⟨_, List.mem_cons_self, same.symm, by rw [same]⟩
    · have later : x ∈ fields := by
        rcases List.mem_cons.mp mem with rfl | later
        · exact absurd rfl same
        · exact later
      obtain ⟨y, hy, ref, annotations⟩ := ih (without noted [z.ref]) values.tail later
      refine ⟨y, List.mem_cons_of_mem _ hy, ref, ?_⟩
      rw [annotations, without, if_neg (fun listed => same (List.mem_singleton.mp listed))]

/-- The values that were handed out are those that are given now. -/
theorem initials_handOut (noted : FieldRef → List Annotation) (fields : List Field) :
    initials (handOut noted (initials fields) fields) = initials fields := by
  induction fields generalizing noted with
  | nil => rfl
  | cons x fields ih =>
    by_cases some : (x :: fields).any (·.initial.isSome) = true
    · rw [initials, if_pos some, handOut, List.head?_cons, List.tail_cons, initials, ih]
      simp only [List.any_cons, Option.isSome_some, Bool.true_or, if_true, Option.getD_some,
        Value.normal_normal]
    · have none : initials (x :: fields) = [] := by rw [initials, if_neg some]
      rw [none]
      refine initials_eq_nil fun y hy => ?_
      cases given : y.initial with
      | none => rfl
      | some v => exact absurd ((of_mem_handOut hy).2.1 v given) List.not_mem_nil

/-- Fields that are read back keep their kind. -/
theorem filter_handOut {keep : Field → Bool} (same : ∀ x y : Field, y.flags = x.flags → keep y = keep x)
    (all : ∀ x ∈ fields, keep x = true) :
    (handOut noted values fields).filter keep = handOut noted values fields := by
  refine List.filter_eq_self.mpr fun y hy => ?_
  obtain ⟨x, hx, _, flags⟩ := (of_mem_handOut hy).1
  rw [same x y flags]
  exact all x hx

/-- Fields of one kind have none of the other. -/
theorem filter_handOut_none {keep : Field → Bool}
    (same : ∀ x y : Field, y.flags = x.flags → keep y = keep x)
    (none : ∀ x ∈ fields, keep x = false) : (handOut noted values fields).filter keep = [] := by
  refine List.filter_eq_nil_iff.mpr fun y hy => ?_
  obtain ⟨x, hx, _, flags⟩ := (of_mem_handOut hy).1
  rw [same x y flags, none x hx]
  exact Bool.false_ne_true

/-- A field is static by its flags. -/
theorem isStatic_of_flags (x y : Field) (same : y.flags = x.flags) : y.isStatic = x.isStatic := by
  rw [Field.isStatic, Field.isStatic, same]

end HandOut

section ReadFields

variable {noted noted' : FieldRef → List Annotation} {fields : List Field} {x y : Field}

/-- What a field that is read back has: the reference and the flags of a field of the
class, the initial value of a static field, and the annotations noted for it, unless
another one has taken them. -/
theorem of_mem_readFields (mem : y ∈ readFields noted fields) :
    (∃ x ∈ fields, y.ref = x.ref ∧ y.flags = x.flags)
      ∧ (∀ v, y.initial = some v → v ∈ initials (inFieldOrder (fields.filter Field.isStatic)))
      ∧ (y.annotations = noted y.ref ∨ y.annotations = []) := by
  have listed {keep : Field → Bool}
      (h : ∃ x ∈ inFieldOrder (fields.filter keep), y.ref = x.ref ∧ y.flags = x.flags) :
      ∃ x ∈ fields, y.ref = x.ref ∧ y.flags = x.flags :=
    h.imp fun x hx => ⟨mem_of_mem_inFieldOrder hx.1, hx.2⟩
  rcases List.mem_append.mp mem with static | other
  · obtain ⟨same, initial, annotations⟩ := of_mem_handOut static
    exact ⟨listed same, initial, annotations⟩
  · obtain ⟨same, initial, annotations⟩ := of_mem_handOut other
    refine ⟨listed same, fun v given => absurd (initial v given) List.not_mem_nil, ?_⟩
    rw [without] at annotations
    split at annotations
    · exact Or.inr (annotations.elim id id)
    · exact annotations

/-- Every field is read, with what is noted for it. -/
theorem exists_mem_readFields (noted : FieldRef → List Annotation) (mem : x ∈ fields) :
    ∃ y ∈ readFields noted fields, y.ref = x.ref ∧ y.annotations = noted x.ref := by
  unfold readFields
  by_cases taken : x.ref ∈ (inFieldOrder (fields.filter Field.isStatic)).map Field.ref
  · obtain ⟨z, hz, same⟩ := List.mem_map.mp taken
    obtain ⟨y, hy, ref, annotations⟩ := exists_mem_handOut _ _ hz
    exact ⟨y, List.mem_append_left _ hy, ref.trans same, by rw [annotations, same]⟩
  · have other : x ∈ inFieldOrder (fields.filter (!·.isStatic)) := by
      refine mem_inFieldOrder.mpr (List.mem_filter.mpr ⟨mem, ?_⟩)
      by_contra static
      refine taken (List.mem_map_of_mem (mem_inFieldOrder.mpr (List.mem_filter.mpr ⟨mem, ?_⟩)))
      simpa using static
    obtain ⟨y, hy, ref, annotations⟩ := exists_mem_handOut _ _ other
    refine ⟨y, List.mem_append_right _ hy, ref, ?_⟩
    rw [annotations, without, if_neg taken]

/-- The static fields of those that are read back are the first group of them. -/
theorem statics_readFields (noted : FieldRef → List Annotation) (fields : List Field) :
    (readFields noted fields).filter Field.isStatic
      = handOut noted (initials (inFieldOrder (fields.filter Field.isStatic)))
        (inFieldOrder (fields.filter Field.isStatic)) := by
  rw [readFields, List.filter_append, filter_handOut isStatic_of_flags fun x hx => ?_,
    filter_handOut_none isStatic_of_flags fun x hx => ?_, List.append_nil]
  · simpa using (List.mem_filter.mp (mem_inFieldOrder.mp hx)).2
  · exact (List.mem_filter.mp (mem_inFieldOrder.mp hx)).2

/-- The other fields are the second group. -/
theorem instances_readFields (noted : FieldRef → List Annotation) (fields : List Field) :
    (readFields noted fields).filter (!·.isStatic)
      = handOut (without noted ((inFieldOrder (fields.filter Field.isStatic)).map Field.ref)) []
        (inFieldOrder (fields.filter (!·.isStatic))) := by
  have kind : ∀ x y : Field, y.flags = x.flags → (!y.isStatic) = !x.isStatic := by
    intro x y flags
    rw [isStatic_of_flags x y flags]
  rw [readFields, List.filter_append, filter_handOut_none kind fun x hx => ?_,
    filter_handOut kind fun x hx => ?_, List.nil_append]
  · simpa using (List.mem_filter.mp (mem_inFieldOrder.mp hx)).2
  · simpa using (List.mem_filter.mp (mem_inFieldOrder.mp hx)).2

/-- Fields that were read back are read back as they are. -/
theorem readFields_readFields (same : ∀ x ∈ fields, noted' x.ref = noted x.ref) :
    readFields noted' (readFields noted fields) = readFields noted fields := by
  have listed {keep : Field → Bool} :
      ∀ x ∈ inFieldOrder (fields.filter keep), noted' x.ref = noted x.ref := by
    intro x hx
    exact same x (mem_of_mem_inFieldOrder hx)
  unfold readFields
  change handOut noted' (initials (inFieldOrder ((readFields noted fields).filter Field.isStatic)))
      (inFieldOrder ((readFields noted fields).filter Field.isStatic))
    ++ handOut (without noted' ((inFieldOrder ((readFields noted fields).filter Field.isStatic)).map
      Field.ref)) [] (inFieldOrder ((readFields noted fields).filter (!·.isStatic))) = _
  rw [statics_readFields, instances_readFields, inFieldOrder_of_refs (handOut_refs _ _ _),
    inFieldOrder_of_refs (handOut_refs _ _ _), initials_handOut, handOut_handOut, handOut_handOut,
    handOut_refs]
  refine congrArg₂ (· ++ ·) (handOut_congr _ listed) (handOut_congr _ fun x hx => ?_)
  rw [without, without, listed x hx]

end ReadFields

/-! ## Classes -/

section Classes

variable {f : File} {order : List Nat} {c d : ClassDecl} {i n : Nat}

/-- The classes that are read again are those of the rows. -/
theorem mem_reread : d ∈ (reread f order).classes ↔
    ∃ i ∈ order, ∃ c, f.classes[i]? = some c ∧ readClass f i c = d := by
  simp only [reread, readClasses, List.mem_filterMap, Option.map_eq_some_iff]

/-- Each is read where its row stands. -/
theorem getElem?_reread (inside : ∀ i ∈ order, i < f.classes.length) (n : Nat) :
    (reread f order).classes[n]? = order[n]?.bind fun i => f.classes[i]?.map (readClass f i) := by
  refine Hierarchy.getElem?_filterMap (fun i hi => ?_) n
  rw [List.getElem?_eq_getElem (inside i hi)]
  rfl

/-- What was noted for the fields of a class is noted for them again. -/
theorem notedFor_reread (again : (reread f order).classes[n]? = some (readClass f i c)) {x : Field}
    (hx : x ∈ c.fields) :
    notedFor (reread f order) n x.ref = notedFor f i x.ref := by
  have placed : (⟨n, readClass f i c, Members.ofClass (poolOf (reread f order)) (readClass f i c)⟩ : Placed)
      ∈ placedOf (reread f order) := mem_placedOf.mpr ⟨again, rfl⟩
  have inside := List.mem_of_getElem? again
  obtain ⟨y, hy, ref, annotations⟩ := exists_mem_readFields (notedFor f i) hx
  have only : given (reread f order) (.field n ((poolOf (reread f order)).field x.ref))
      = notedFor f i x.ref := by
    refine given_of_unique (fun some => mem_owned.mpr ⟨some, _, placed, Or.inr (Or.inl
      ⟨((poolOf (reread f order)).field y.ref, y), mem_fields.mpr ⟨hy, rfl⟩, ?_, ?_⟩)⟩) fun as has => ?_
    · rw [ref]
    · rw [annotations]
    · obtain ⟨some, e, he, ⟨same, _⟩ | ⟨⟨j, z⟩, hz, same, rfl⟩ | ⟨_, _, same, _⟩
        | ⟨_, _, _, same, _⟩⟩ := mem_owned.mp has
      · cases same
      · obtain ⟨position, index⟩ := SetOwner.field.inj same
        obtain rfl := placed_unique placed he position
        obtain ⟨listed, rfl⟩ := mem_fields.mp hz
        have equal : x.ref = z.ref := by
          rw [← ref]
          exact Table.indexOf_injective _ (field_mentioned inside hy)
            (field_mentioned inside listed) (by rw [ref]; exact index)
        rw [equal]
        exact (of_mem_readFields listed).2.2.resolve_right some
      · cases same
      · cases same
  rw [notedFor, only, notedFor, normalSet_normalSet]

/-- A class that was read back is read back as it is. -/
theorem readClass_reread (again : (reread f order).classes[n]? = some (readClass f i c)) :
    readClass (reread f order) n (readClass f i c) = readClass f i c := by
  have fields : readFields (notedFor (reread f order) n) (readFields (notedFor f i) c.fields)
      = readFields (notedFor f i) c.fields :=
    readFields_readFields fun x hx => notedFor_reread again hx
  show ({ (readClass f i c).normal with
    fields := readFields _ (readFields (notedFor f i) c.fields) } : ClassDecl) = _
  simp only [fields, readClass, ClassDecl.normal, normalSet_normalSet, normalMethods_normalMethods]

/-- A file that was read back is read back as it is. -/
theorem readClasses_reread (inside : ∀ i ∈ order, i < f.classes.length) :
    readClasses (reread f order) (List.range (reread f order).classes.length)
      = (reread f order).classes := by
  have same : ∀ n ∈ List.range (reread f order).classes.length,
      (reread f order).classes[n]?.map (readClass (reread f order) n)
        = (reread f order).classes[n]? := by
    intro n _
    cases again : (reread f order).classes[n]? with
    | none => rfl
    | some d =>
      rw [getElem?_reread inside, Option.bind_eq_some_iff] at again
      obtain ⟨i, hi, found⟩ := again
      obtain ⟨c, stands, rfl⟩ := Option.map_eq_some_iff.mp found
      have again : (reread f order).classes[n]? = some (readClass f i c) := by
        rw [getElem?_reread inside, hi, Option.bind_some, stands, Option.map_some]
      exact congrArg some (readClass_reread again)
  rw [readClasses, List.filterMap_congr same, Hierarchy.filterMap_range]

/-! ## What is mentioned -/

/-- An initial value is that of a field, or the default for it. -/
theorem of_mem_initials {fields : List Field} {v : Value} (mem : v ∈ initials fields) :
    ∃ x ∈ fields, v = (x.initial.getD (Value.default x.ref.type)).normal := by
  induction fields with
  | nil => cases mem
  | cons x fields ih =>
    rw [initials] at mem
    split at mem
    · rcases List.mem_cons.mp mem with rfl | later
      · exact ⟨x, List.mem_cons_self, rfl⟩
      · obtain ⟨y, hy, same⟩ := ih later
        exact ⟨y, List.mem_cons_of_mem _ hy, same⟩
    · cases mem

/-- What is noted for a field is mentioned. -/
theorem notedFor_mentions {r : FieldRef} {a : Annotation} (ha : a ∈ notedFor f i r) :
    ∀ m ∈ a.mentions, m ∈ f.mentions := by
  intro m hm
  have mem := (mem_mentions_normalSet _).mp (List.mem_flatMap.mpr ⟨a, ha, hm⟩)
  obtain ⟨a', ha', hm'⟩ := List.mem_flatMap.mp mem
  rw [given] at ha'
  cases found : lastFor (owned f) (.field i ((poolOf f).field r)) with
  | none =>
    rw [found] at ha'
    cases ha'
  | some annotations =>
    rw [found] at ha'
    exact given_mentioned (mem_of_lastFor found) a' ha' m hm'

/-- A class that is read back mentions nothing new. -/
theorem readClass_mentions (stands : f.classes[i]? = some c) :
    (readClass f i c).mentions ⊆ f.mentions := by
  have inside := List.mem_of_getElem? stands
  intro m hm
  simp only [ClassDecl.mentions, List.mem_append] at hm
  rcases hm with (((types | file) | annotations) | fields) | methods
  · exact mentions_of_class inside (List.mem_append_left _ (List.mem_append_left _
      (List.mem_append_left _ (List.mem_append_left _ types))))
  · exact mentions_of_class inside (List.mem_append_left _ (List.mem_append_left _
      (List.mem_append_left _ (List.mem_append_right _ file))))
  · have annotations := (mem_mentions_normalSet c.annotations).mp annotations
    exact mentions_of_class inside (List.mem_append_left _ (List.mem_append_left _
      (List.mem_append_right _ annotations)))
  · obtain ⟨y, hy, hm⟩ := List.mem_flatMap.mp fields
    obtain ⟨⟨x, hx, ref, _⟩, initial, annotations⟩ := of_mem_readFields hy
    rw [Field.mentions, List.mem_cons, List.mem_append] at hm
    rcases hm with rfl | value | set
    · rw [ref]
      exact mentions_of_field inside hx _ List.mem_cons_self
    · cases given : y.initial with
      | none =>
        rw [given] at value
        cases value
      | some v =>
        rw [given] at value
        obtain ⟨z, hz, rfl⟩ := of_mem_initials (initial v given)
        have hz := mem_of_mem_inFieldOrder hz
        have value := (Value.mem_mentions_normal _).mp value
        cases own : z.initial with
        | none =>
          rw [own, Option.getD_none, default_mentions] at value
          cases value
        | some w =>
          rw [own] at value
          exact mentions_of_initial inside hz own m value
    · obtain ⟨a, ha, hm⟩ := List.mem_flatMap.mp set
      rcases annotations with noted | none
      · rw [noted] at ha
        exact notedFor_mentions ha m hm
      · rw [none] at ha
        cases ha
  · have methods := (mem_mentions_normalMethods c.methods).mp methods
    exact mentions_of_class inside (List.mem_append_right _ methods)

/-- A file that is read again mentions nothing new. -/
theorem reread_mentions : (reread f order).mentions ⊆ f.mentions := by
  intro m hm
  obtain ⟨d, hd, hm⟩ := List.mem_flatMap.mp hm
  obtain ⟨i, _, c, stands, rfl⟩ := mem_reread.mp hd
  exact readClass_mentions stands hm

/-! ## Methods and the order of classes -/

/-- It has the methods of the classes whose rows it has. -/
theorem refs_reread (f : File) (order : List Nat) :
    (((reread f order).classes.flatMap ClassDecl.methods).map Method.ref).Perm
      (((order.filterMap (f.classes[·]?)).flatMap ClassDecl.methods).map Method.ref) := by
  show (((readClasses f order).flatMap ClassDecl.methods).map Method.ref).Perm _
  rw [readClasses]
  induction order with
  | nil => exact .refl _
  | cons i order ih =>
    cases stands : f.classes[i]? with
    | none =>
      rw [List.filterMap_cons_none stands, List.filterMap_cons_none (by rw [stands]; rfl)]
      exact ih
    | some c =>
      rw [List.filterMap_cons_some stands, List.filterMap_cons_some (by rw [stands]; rfl),
        List.flatMap_cons, List.flatMap_cons, List.map_append, List.map_append]
      have methods := (normalMethods_perm c.methods).map Method.ref
      rw [List.map_map] at methods
      exact methods.append ih

/-- So none of them is listed twice. -/
theorem methodsDistinct_reread (perm : order.Perm (List.range f.classes.length))
    (distinct : f.MethodsDistinct) : (reread f order).MethodsDistinct := by
  have classes := perm.filterMap (f.classes[·]?)
  rw [Hierarchy.filterMap_range] at classes
  have refs := (refs_reread f order).trans ((classes.flatMap_right ClassDecl.methods).map Method.ref)
  exact refs.nodup_iff.mpr distinct

/-- Classes that are read back stand in their order. -/
theorem order_reread (ordered : Hierarchy.order f.classes = .ok order)
    (distinct : (f.classes.map ClassDecl.type).Nodup) :
    Hierarchy.order (reread f order).classes
      = .ok (List.range (reread f order).classes.length) := by
  have inside : ∀ i ∈ order, i < f.classes.length := fun i hi =>
    List.mem_range.mp ((Hierarchy.order_perm ordered).subset hi)
  have some : ∀ i ∈ order, (f.classes[i]?).isSome := fun i hi => by
    simpa using inside i hi
  refine Hierarchy.order_of_parentsFirst fun a b c d hc hd parent => ?_
  rw [getElem?_reread inside, Option.bind_eq_some_iff] at hc hd
  obtain ⟨i, hi, hc⟩ := hc
  obtain ⟨j, hj, hd⟩ := hd
  obtain ⟨c, stands_c, rfl⟩ := Option.map_eq_some_iff.mp hc
  obtain ⟨d, stands_d, rfl⟩ := Option.map_eq_some_iff.mp hd
  refine Hierarchy.parentsFirst_order ordered distinct a b c d ?_ ?_ parent
  · rw [Hierarchy.getElem?_filterMap some, hi, Option.bind_some, stands_c]
  · rw [Hierarchy.getElem?_filterMap some, hj, Option.bind_some, stands_d]

end Classes

end StubJar.Container
