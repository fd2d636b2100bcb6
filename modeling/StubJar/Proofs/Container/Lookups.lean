import StubJar.Proofs.Container.ClassRows

/-!
# What writing asks the tables

Once the tables of a file are known, writing the rest asks them for the index of one
thing after another (`File.lookups`). The list leaves nothing out: tables with the same
rows that answer these questions alike give the same bytes, whatever they answer to any
other question (`encodeWith_alike`). So a question outside the list is never asked.

Each function of the writer has one lemma here, and each lemma asks for the questions
of that function only.
-/

namespace StubJar.Dalvik

/-- The member as something that has a row. -/
def HandleMember.mention : HandleMember → Mention
  | .field r => .field r
  | .method r => .method r

/-- The annotations of a class, of its members and of their parameters. -/
def ClassDecl.everyAnnotation (c : ClassDecl) : List Annotation :=
  c.annotations ++ c.fields.flatMap Field.annotations
    ++ c.methods.flatMap fun m => m.annotations ++ m.parameterAnnotations.flatten

end StubJar.Dalvik

namespace StubJar.Container

open StubJar.Bytes StubJar.Dalvik StubJar.Order

/-! ## Questions and answers -/

namespace Pool

/-- The index that the tables have for a thing. -/
def answer? (p : Pool) : Mention → Option Nat
  | .string s => p.strings.index? s
  | .type d => p.types.index? d
  | .prototype q => p.prototypes.index? q
  | .field r => p.fields.index? r
  | .method r => p.methods.index? r
  | .handle h => p.handles.index? h

/-- The thing has the row of this index. -/
def RowAt (p : Pool) (i : Nat) : Mention → Prop
  | .string s => p.strings.items[i]? = some s
  | .type d => p.types.items[i]? = some d
  | .prototype q => p.prototypes.items[i]? = some q
  | .field r => p.fields.items[i]? = some r
  | .method r => p.methods.items[i]? = some r
  | .handle h => p.handles.items[i]? = some h

/-- The rows are the same; what the tables answer may differ. -/
structure SameRows (p p' : Pool) : Prop where
  strings : p'.strings.items = p.strings.items
  types : p'.types.items = p.types.items
  prototypes : p'.prototypes.items = p.prototypes.items
  fields : p'.fields.items = p.fields.items
  methods : p'.methods.items = p.methods.items
  handles : p'.handles.items = p.handles.items
  needsHandles : p'.needsHandles = p.needsHandles

/-- The tables answer these questions alike. -/
def Alike (p p' : Pool) (asked : List Mention) : Prop := ∀ m ∈ asked, p'.answer? m = p.answer? m

end Pool

/-- What is asked for the rows of the tables. -/
def rowLookups (p : Pool) : List Mention :=
  p.types.items.map (fun d => .string d.text)
    ++ p.prototypes.items.flatMap (fun q =>
      .string (q.shorty?.getD "") :: (q.result :: q.parameters).map .type)
    ++ p.fields.items.flatMap (fun r => [.type r.owner, .type r.type, .string r.name])
    ++ p.methods.items.flatMap (fun r => [.type r.owner, .prototype r.prototype, .string r.name])
    ++ p.handles.items.map (fun h => h.member.mention)

/-- What is asked for a class: its row, its members, its annotations and the initial
values of its static fields, defaults included. -/
def classLookups (p : Pool) (c : ClassDecl) : List Mention :=
  (c.type :: c.parents).map .type ++ c.sourceFile.toList.map .string
    ++ c.fields.map (fun x => .field x.ref) ++ c.methods.map (fun x => .method x.ref)
    ++ c.everyAnnotation.flatMap Annotation.mentions
    ++ (Members.ofClass p c).initialValues.flatMap Value.mentions

/-- What is asked when a file is written with the given tables. -/
def lookups (p : Pool) (f : File) : List Mention :=
  rowLookups p ++ f.classes.flatMap (classLookups p)

/-- The types of the lists of which the offset is asked. -/
def askedLists (p : Pool) (f : File) : List (List Descriptor) :=
  p.prototypes.items.map Prototype.parameters ++ f.classes.map ClassDecl.interfaces

/-- Where the items of a file are placed with the given tables. -/
def layoutWith (p : Pool) (f : File) : Layout :=
  Layout.ofClasses p f.classes (placeClasses p f.classes) (bodies (placeClasses p f.classes))

/-- What is left of writing a file when its tables are known. -/
def encodeWith (p : Pool) (f : File) : Except EncodeFault (List UInt8) := do
  let order ← Hierarchy.order f.classes
  checkBodies (bodies (placeClasses p f.classes))
  let l := layoutWith p f
  return stamp (writtenVersion p f) (encodeSizes l (l.dataStart + l.data.length)
    ++ encodeTables p l f.classes.toArray order ++ l.data)

/-- A file is written with its own tables. -/
theorem encode_eq (f : File) : encode f = Pool.ofFile f >>= fun p => encodeWith p f := rfl

/-! ## Which part asks what -/

section Parts

variable {p : Pool} {f : File} {c : ClassDecl}

/-- The row of a type asks for its text. -/
theorem rowLookups.type {d : Descriptor} (hd : d ∈ p.types.items) :
    .string d.text ∈ rowLookups p := by
  simp only [rowLookups, List.mem_append, List.mem_map]
  grind

/-- That of a prototype asks for its letters and its types. -/
theorem rowLookups.prototype {q : Prototype} (hq : q ∈ p.prototypes.items) :
    .string (q.shorty?.getD "") :: (q.result :: q.parameters).map .type ⊆ rowLookups p := by
  intro m hm
  simp only [rowLookups, List.mem_append, List.mem_flatMap]
  exact Or.inl (Or.inl (Or.inl (Or.inr ⟨q, hq, hm⟩)))

/-- That of a field asks for its owner, its type and its name. -/
theorem rowLookups.field {r : FieldRef} (hr : r ∈ p.fields.items) :
    [.type r.owner, .type r.type, .string r.name] ⊆ rowLookups p := by
  intro m hm
  simp only [rowLookups, List.mem_append, List.mem_flatMap]
  exact Or.inl (Or.inl (Or.inr ⟨r, hr, hm⟩))

/-- That of a method asks for its owner, its prototype and its name. -/
theorem rowLookups.method {r : MethodRef} (hr : r ∈ p.methods.items) :
    [.type r.owner, .prototype r.prototype, .string r.name] ⊆ rowLookups p := by
  intro m hm
  simp only [rowLookups, List.mem_append, List.mem_flatMap]
  exact Or.inl (Or.inr ⟨r, hr, hm⟩)

/-- That of a handle asks for its member. -/
theorem rowLookups.handle {k : MethodHandle} (hk : k ∈ p.handles.items) :
    k.member.mention ∈ rowLookups p := List.mem_append_right _ (List.mem_map_of_mem hk)

/-- A class asks for its type and its parents. -/
theorem classLookups.types : (c.type :: c.parents).map .type ⊆ classLookups p c := by
  intro m hm
  simp only [classLookups, List.mem_append]
  exact Or.inl (Or.inl (Or.inl (Or.inl (Or.inl hm))))

/-- It asks for the file that it is from. -/
theorem classLookups.sourceFile {s : String} (given : c.sourceFile = some s) :
    .string s ∈ classLookups p c := by
  simp only [classLookups, List.mem_append]
  exact Or.inl (Or.inl (Or.inl (Or.inl (Or.inr (by simp [given])))))

/-- It asks for its fields. -/
theorem classLookups.field {x : Field} (hx : x ∈ c.fields) : .field x.ref ∈ classLookups p c := by
  simp only [classLookups, List.mem_append]
  exact Or.inl (Or.inl (Or.inl (Or.inr (List.mem_map_of_mem hx))))

/-- It asks for its methods. -/
theorem classLookups.method {x : Method} (hx : x ∈ c.methods) : .method x.ref ∈ classLookups p c := by
  simp only [classLookups, List.mem_append]
  exact Or.inl (Or.inl (Or.inr (List.mem_map_of_mem hx)))

/-- It asks for what its annotations mention. -/
theorem classLookups.annotated {a : Annotation} (ha : a ∈ c.everyAnnotation) :
    a.mentions ⊆ classLookups p c := by
  intro m hm
  simp only [classLookups, List.mem_append]
  exact Or.inl (Or.inr (List.mem_flatMap.mpr ⟨a, ha, hm⟩))

/-- It asks for what its initial values mention. -/
theorem classLookups.value {v : Value} (hv : v ∈ (Members.ofClass p c).initialValues) :
    v.mentions ⊆ classLookups p c := by
  intro m hm
  exact List.mem_append_right _ (List.mem_flatMap.mpr ⟨v, hv, hm⟩)

/-- A file asks for what the rows of its tables do. -/
theorem lookups.rows : rowLookups p ⊆ lookups p f := List.subset_append_left _ _

/-- It asks for what its classes do. -/
theorem lookups.class (hc : c ∈ f.classes) : classLookups p c ⊆ lookups p f := by
  intro m hm
  exact List.mem_append_right _ (List.mem_flatMap.mpr ⟨c, hc, hm⟩)

end Parts

/-! ## Alike tables write alike -/

section Alike

variable {p p' : Pool}

namespace Pool.Alike

variable {asked fewer : List Mention}

/-- Tables that answer alike do so for fewer questions. -/
theorem mono (h : Alike p p' asked) (subset : fewer ⊆ asked) : Alike p p' fewer := by
  intro m mem
  exact h m (subset mem)

/-- They give a string the same index. -/
theorem string (h : Alike p p' asked) {s : String} (mem : .string s ∈ asked) :
    p'.string s = p.string s := congrArg (·.getD 0) (h _ mem)

/-- They give a type the same index. -/
theorem type (h : Alike p p' asked) {d : Descriptor} (mem : .type d ∈ asked) :
    p'.type d = p.type d := congrArg (·.getD 0) (h _ mem)

/-- They give a prototype the same index. -/
theorem prototype (h : Alike p p' asked) {q : Prototype} (mem : .prototype q ∈ asked) :
    p'.prototype q = p.prototype q := congrArg (·.getD 0) (h _ mem)

/-- They give a field the same index. -/
theorem field (h : Alike p p' asked) {r : FieldRef} (mem : .field r ∈ asked) :
    p'.field r = p.field r := congrArg (·.getD 0) (h _ mem)

/-- They give a method the same index. -/
theorem method (h : Alike p p' asked) {r : MethodRef} (mem : .method r ∈ asked) :
    p'.method r = p.method r := congrArg (·.getD 0) (h _ mem)

/-- They give a handle the same index. -/
theorem handle (h : Alike p p' asked) {k : MethodHandle} (mem : .handle k ∈ asked) :
    p'.handle k = p.handle k := congrArg (·.getD 0) (h _ mem)

/-- They give the member of a handle the same index. -/
theorem member (h : Alike p p' asked) {m : HandleMember} (mem : m.mention ∈ asked) :
    p'.member m = p.member m := by
  cases m with
  | field r => exact h.field mem
  | method r => exact h.method mem

/-- The indices of types that are asked for. -/
theorem types (h : Alike p p' asked) {ds : List Descriptor} (mem : ds.map .type ⊆ asked) :
    ds.map p'.type = ds.map p.type := by
  apply List.map_congr_left
  intro d hd
  exact h.type (mem (List.mem_map_of_mem hd))

end Pool.Alike

open Pool (Alike SameRows)

/-! ### Values and annotations -/

mutual

/-- With tables that answer alike, a value is written alike. -/
theorem encodeValue_alike (v : Value) (h : Alike p p' v.mentions) :
    encodeValue p' v = encodeValue p v := by
  cases v with
  | methodType q => simp only [encodeValue, h.prototype (q := q) (by simp [Value.mentions])]
  | methodHandle k => simp only [encodeValue, h.handle (k := k) (by simp [Value.mentions])]
  | string s => simp only [encodeValue, h.string (s := s) (by simp [Value.mentions])]
  | type d => simp only [encodeValue, h.type (d := d) (by simp [Value.mentions])]
  | field r => simp only [encodeValue, h.field (r := r) (by simp [Value.mentions])]
  | method r => simp only [encodeValue, h.method (r := r) (by simp [Value.mentions])]
  | «enum» r => simp only [encodeValue, h.field (r := r) (by simp [Value.mentions])]
  | array items =>
    rw [Value.mentions] at h
    rw [encodeValue, encodeValue, encodeValues_alike items h]
  | nested d elements =>
    rw [Value.mentions] at h
    rw [encodeValue, encodeValue, h.type List.mem_cons_self,
      encodeElements_alike elements (h.mono (List.subset_cons_self _ _))]
  | _ => simp only [encodeValue]

/-- So are the items of an array. -/
theorem encodeValues_alike (vs : List Value) (h : Alike p p' (Value.allMentions vs)) :
    encodeValues p' vs = encodeValues p vs := by
  cases vs with
  | nil => rfl
  | cons v vs =>
    rw [Value.allMentions] at h
    rw [encodeValues, encodeValues, encodeValue_alike v (h.mono (List.subset_append_left _ _)),
      encodeValues_alike vs (h.mono (List.subset_append_right _ _))]

theorem encodeElements_alike (elements : List (String × Value))
    (h : Alike p p' (Value.elementMentions elements)) :
    encodeElements p' elements = encodeElements p elements := by
  cases elements with
  | nil => rfl
  | cons e elements =>
    obtain ⟨name, v⟩ := e
    rw [Value.elementMentions] at h
    have behind := h.mono (List.subset_cons_self _ _)
    rw [encodeElements, encodeElements, h.string List.mem_cons_self,
      encodeValue_alike v (behind.mono (List.subset_append_left _ _)),
      encodeElements_alike elements (behind.mono (List.subset_append_right _ _))]

end

theorem encodeAnnotationItem_alike {a : Annotation} (h : Alike p p' a.mentions) :
    encodeAnnotationItem p' a = encodeAnnotationItem p a := by
  rw [encodeAnnotationItem, encodeAnnotationItem, h.type List.mem_cons_self,
    encodeElements_alike a.elements (h.mono (List.subset_cons_self _ _))]

/-- A set is sorted alike. -/
theorem orderedSet_alike {as : List Annotation} (h : ∀ a ∈ as, Alike p p' a.mentions) :
    orderedSet p' as = orderedSet p as := by
  apply sortOn_congr
  intro a ha b hb
  rw [(h a ha).type List.mem_cons_self, (h b hb).type List.mem_cons_self]

/-! ### Classes at their positions -/

section Classes

variable {c : ClassDecl}

/-- The members of a class are sorted alike. -/
theorem ofClass_alike (h : Alike p p' (classLookups p c)) :
    Members.ofClass p' c = Members.ofClass p c := by
  have fields : (c.fields.map fun x => (p'.field x.ref, x)) = c.fields.map fun x => (p.field x.ref, x) := by
    apply List.map_congr_left
    intro x hx
    rw [h.field (classLookups.field hx)]
  have methods : (c.methods.map fun x => (p'.method x.ref, x))
      = c.methods.map fun x => (p.method x.ref, x) := by
    apply List.map_congr_left
    intro x hx
    rw [h.method (classLookups.method hx)]
  simp only [Members.ofClass, fields, methods]

theorem placeClasses_alike {classes : List ClassDecl}
    (h : ∀ c ∈ classes, Alike p p' (classLookups p c)) :
    placeClasses p' classes = placeClasses p classes := by
  apply List.map_congr_left
  rintro ⟨c, i⟩ mem
  have stands := List.mk_mem_zipIdx_iff_getElem?.mp mem
  simp only [ofClass_alike (h c (List.mem_of_getElem? stands))]

/-- A class that is placed is one of the file, with its members. -/
theorem mem_placeClasses {classes : List ClassDecl} {x : Placed} (mem : x ∈ placeClasses p classes) :
    x.type ∈ classes ∧ x.members = Members.ofClass p x.type := by
  obtain ⟨⟨c, i⟩, hc, rfl⟩ := List.mem_map.mp mem
  exact ⟨List.mem_of_getElem? (List.mk_mem_zipIdx_iff_getElem?.mp hc), rfl⟩

/-- The annotations of the sets of a class are those of the class and its members. -/
theorem mem_everyAnnotation {x : Placed} (members : x.members = Members.ofClass p x.type)
    {set : SetOwner × List Annotation} (hset : set ∈ x.sets) {a : Annotation} (ha : a ∈ set.2) :
    a ∈ x.type.everyAnnotation := by
  have hset := (List.mem_filter.mp hset).1
  simp only [List.mem_append, List.mem_singleton, List.mem_map, List.mem_flatMap, members] at hset
  simp only [ClassDecl.everyAnnotation, List.mem_append, List.mem_flatMap, List.mem_flatten]
  rcases hset with ((rfl | ⟨⟨i, y⟩, hy, rfl⟩) | ⟨⟨i, y⟩, hy, rfl⟩) | ⟨⟨i, y⟩, hy, among⟩
  · exact Or.inl (Or.inl ha)
  · exact Or.inl (Or.inr ⟨y, (mem_fields.mp hy).1, ha⟩)
  · exact Or.inr ⟨y, (mem_methods.mp hy).1, Or.inl ha⟩
  · obtain ⟨⟨as, k⟩, hk, rfl⟩ := List.mem_map.mp among
    have stands := List.mk_mem_zipIdx_iff_getElem?.mp hk
    exact Or.inr ⟨y, (mem_methods.mp hy).1, Or.inr ⟨as, List.mem_of_getElem? stands, ha⟩⟩

end Classes

/-! ### Layouts -/

section Layouts

variable {f : File}

/-- Lists of types are written alike. -/
theorem typeLists_alike (rows : SameRows p p')
    (h : ∀ ds ∈ askedLists p f, Alike p p' (ds.map .type)) :
    typeLists p' f.classes = typeLists p f.classes := by
  have lists : (askedLists p f).map (·.map p'.type) = (askedLists p f).map (·.map p.type) := by
    apply List.map_congr_left
    intro ds hds
    exact (h ds hds).types (List.Subset.refl _)
  rw [typeLists, typeLists, rows.prototypes]
  exact congrArg (fun lists => distinct (lists.filter (!·.isEmpty))) lists

/-- Sets are sorted alike. -/
theorem groups_alike {owned : List (SetOwner × List Annotation)}
    (h : ∀ set ∈ owned, ∀ a ∈ set.2, Alike p p' a.mentions) :
    (owned.map fun (_, as) => orderedSet p' as) = owned.map fun (_, as) => orderedSet p as := by
  apply List.map_congr_left
  intro set mem
  exact orderedSet_alike (h set mem)

theorem annotationItems_alike {owned : List (SetOwner × List Annotation)}
    (h : ∀ set ∈ owned, ∀ a ∈ set.2, Alike p p' a.mentions) :
    (owned.map fun (_, as) => orderedSet p as).flatten.map (encodeAnnotationItem p')
      = (owned.map fun (_, as) => orderedSet p as).flatten.map (encodeAnnotationItem p) := by
  apply List.map_congr_left
  intro a ha
  obtain ⟨_, hgroup, ha⟩ := List.mem_flatten.mp ha
  obtain ⟨set, mem, rfl⟩ := List.mem_map.mp hgroup
  exact encodeAnnotationItem_alike (h set mem a (mem_sortOn.mp ha))

/-- All that has to do with annotations is laid out alike. -/
theorem annotationLayout_alike {placed : List Placed} (start : Nat)
    (h : ∀ x ∈ placed, ∀ set ∈ x.sets, ∀ a ∈ set.2, Alike p p' a.mentions) :
    AnnotationLayout.ofClasses p' start placed = AnnotationLayout.ofClasses p start placed := by
  have owned : ∀ set ∈ placed.flatMap Placed.sets, ∀ a ∈ set.2, Alike p p' a.mentions := by
    intro set mem
    obtain ⟨x, hx, hset⟩ := List.mem_flatMap.mp mem
    exact h x hx set hset
  simp only [AnnotationLayout.ofClasses, groups_alike owned, annotationItems_alike owned]

theorem layout_alike (rows : SameRows p p') (h : Alike p p' (lookups p f)) :
    layoutWith p' f = layoutWith p f := by
  have ofClass : ∀ c ∈ f.classes, Alike p p' (classLookups p c) := by
    intro c hc
    exact h.mono (lookups.class hc)
  have lists : ∀ ds ∈ askedLists p f, Alike p p' (ds.map .type) := by
    intro ds hds
    rcases List.mem_append.mp hds with among | among
    · obtain ⟨q, hq, rfl⟩ := List.mem_map.mp among
      refine h.mono fun m hm => lookups.rows (rowLookups.prototype hq ?_)
      exact List.mem_cons_of_mem _ (List.mem_cons_of_mem _ hm)
    · obtain ⟨c, hc, rfl⟩ := List.mem_map.mp among
      refine (ofClass c hc).mono fun m hm => classLookups.types (List.map_subset _ ?_ hm)
      exact fun d hd => List.mem_cons_of_mem _ (List.mem_append_right _ hd)
  have arrays : (placeClasses p f.classes).map (fun x =>
        if x.members.initialValues.isEmpty then none else some (encodeArray p' x.members.initialValues))
      = (placeClasses p f.classes).map fun x =>
        if x.members.initialValues.isEmpty then none else some (encodeArray p x.members.initialValues) := by
    apply List.map_congr_left
    intro x hx
    obtain ⟨hc, members⟩ := mem_placeClasses hx
    have same : encodeValues p' x.members.initialValues = encodeValues p x.members.initialValues := by
      rw [encodeValues_eq, encodeValues_eq]
      apply List.map_congr_left
      intro v hv
      rw [members] at hv
      exact encodeValue_alike v ((ofClass _ hc).mono (classLookups.value hv))
    simp only [encodeArray, same]
  have annotations : ∀ x ∈ placeClasses p f.classes, ∀ set ∈ x.sets, ∀ a ∈ set.2,
      Alike p p' a.mentions := by
    intro x hx set hset a ha
    obtain ⟨hc, members⟩ := mem_placeClasses hx
    have listed := mem_everyAnnotation members hset ha
    exact (ofClass _ hc).mono (classLookups.annotated listed)
  have sizes : tableSizes p' f.classes.length = tableSizes p f.classes.length := by
    simp only [tableSizes, Table.size, rows.strings, rows.types, rows.prototypes, rows.fields,
      rows.methods, rows.handles]
  simp only [layoutWith, placeClasses_alike ofClass, Layout.ofClasses, sizes, typeLists_alike rows lists,
    arrays, annotationLayout_alike _ annotations, rows.strings]

end Layouts

/-! ### Rows -/

section Rows

variable {f : File} {l : Layout}

/-- A list of types stands at the same offset. -/
theorem typeListOffset_alike {ds : List Descriptor} (h : ds.map p'.type = ds.map p.type) :
    l.typeListOffset p' ds = l.typeListOffset p ds := by
  rw [Layout.typeListOffset, Layout.typeListOffset, h]

/-- The row of a prototype is the same. -/
theorem prototypeRow_alike {q : Prototype} (h : Alike p p'
      (.string (q.shorty?.getD "") :: (q.result :: q.parameters).map .type)) :
    l.prototypeRow p' q = l.prototypeRow p q := by
  have parameters : q.parameters.map p'.type = q.parameters.map p.type :=
    h.types fun m hm => List.mem_cons_of_mem _ (List.mem_cons_of_mem _ hm)
  rw [Layout.prototypeRow, Layout.prototypeRow, h.string List.mem_cons_self,
    h.type (d := q.result) (by simp), typeListOffset_alike parameters]

theorem encodeFieldRow_alike {r : FieldRef}
    (h : Alike p p' [.type r.owner, .type r.type, .string r.name]) :
    encodeFieldRow p' r = encodeFieldRow p r := by
  rw [encodeFieldRow, encodeFieldRow, h.type (d := r.owner) (by simp), h.type (d := r.type) (by simp),
    h.string (s := r.name) (by simp)]

theorem encodeMethodRow_alike {r : MethodRef}
    (h : Alike p p' [.type r.owner, .prototype r.prototype, .string r.name]) :
    encodeMethodRow p' r = encodeMethodRow p r := by
  rw [encodeMethodRow, encodeMethodRow, h.type (d := r.owner) (by simp),
    h.prototype (q := r.prototype) (by simp), h.string (s := r.name) (by simp)]

theorem encodeHandleRow_alike {asked : List Mention} (h : Alike p p' asked) {k : MethodHandle}
    (mem : k.member.mention ∈ asked) : encodeHandleRow p' k = encodeHandleRow p k := by
  rw [encodeHandleRow, encodeHandleRow, h.member mem]

theorem classRow_alike {c : ClassDecl} (h : Alike p p' (classLookups p c)) (i : Nat) :
    l.classRow p' i c = l.classRow p i c := by
  have ofTypes : Alike p p' ((c.type :: c.parents).map .type) := h.mono classLookups.types
  have superclass : c.superclass.elim noIndex p'.type = c.superclass.elim noIndex p.type := by
    cases given : c.superclass with
    | none => rfl
    | some d => exact ofTypes.type (by simp [ClassDecl.parents, given])
  have sourceFile : c.sourceFile.elim noIndex p'.string = c.sourceFile.elim noIndex p.string := by
    cases given : c.sourceFile with
    | none => rfl
    | some s => exact h.string (classLookups.sourceFile given)
  have interfaces : c.interfaces.map p'.type = c.interfaces.map p.type :=
    ofTypes.types (List.map_subset _ fun d hd =>
      List.mem_cons_of_mem _ (List.mem_append_right _ hd))
  rw [Layout.classRow, Layout.classRow, ofTypes.type List.mem_cons_self, superclass, sourceFile,
    typeListOffset_alike interfaces]

theorem encodeTables_alike (rows : SameRows p p') (h : Alike p p' (lookups p f)) (order : List Nat) :
    encodeTables p' l f.classes.toArray order = encodeTables p l f.classes.toArray order := by
  have ofRows : Alike p p' (rowLookups p) := h.mono lookups.rows
  have types : p.types.items.flatMap (fun d => le 4 (p'.string d.text))
      = p.types.items.flatMap fun d => le 4 (p.string d.text) := by
    apply List.flatMap_congr
    intro d hd
    rw [ofRows.string (rowLookups.type hd)]
  have prototypes : p.prototypes.items.flatMap (l.prototypeRow p')
      = p.prototypes.items.flatMap (l.prototypeRow p) := by
    apply List.flatMap_congr
    intro q hq
    exact prototypeRow_alike (ofRows.mono (rowLookups.prototype hq))
  have fields : p.fields.items.flatMap (encodeFieldRow p') = p.fields.items.flatMap (encodeFieldRow p) := by
    apply List.flatMap_congr
    intro r hr
    exact encodeFieldRow_alike (ofRows.mono (rowLookups.field hr))
  have methods : p.methods.items.flatMap (encodeMethodRow p')
      = p.methods.items.flatMap (encodeMethodRow p) := by
    apply List.flatMap_congr
    intro r hr
    exact encodeMethodRow_alike (ofRows.mono (rowLookups.method hr))
  have handles : p.handles.items.flatMap (encodeHandleRow p')
      = p.handles.items.flatMap (encodeHandleRow p) := by
    apply List.flatMap_congr
    intro k hk
    exact encodeHandleRow_alike ofRows (rowLookups.handle hk)
  have classes : order.flatMap (fun i => f.classes.toArray[i]?.elim [] (l.classRow p' i))
      = order.flatMap fun i => f.classes.toArray[i]?.elim [] (l.classRow p i) := by
    apply List.flatMap_congr
    intro i _
    rw [List.getElem?_toArray]
    cases stands : f.classes[i]? with
    | none => rfl
    | some c => exact classRow_alike (h.mono (lookups.class (List.mem_of_getElem? stands))) i
  simp only [encodeTables, rows.types, rows.prototypes, rows.fields, rows.methods, rows.handles, types,
    prototypes, fields, methods, handles, classes]

end Rows

/-- Tables with the same rows that answer what writing asks alike give the same
bytes, or refuse the file for the same reason. -/
theorem encodeWith_alike {f : File} (rows : SameRows p p') (h : Alike p p' (lookups p f)) :
    encodeWith p' f = encodeWith p f := by
  have placed : placeClasses p' f.classes = placeClasses p f.classes := by
    apply placeClasses_alike
    intro c hc
    exact h.mono (lookups.class hc)
  have version : writtenVersion p' f = writtenVersion p f := by
    rw [writtenVersion, writtenVersion, rows.needsHandles]
  simp only [encodeWith, placed, layout_alike rows h, version, encodeTables_alike rows h]

end Alike

end StubJar.Container
