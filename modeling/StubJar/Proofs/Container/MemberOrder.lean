import Mathlib.Data.List.Nodup
import StubJar.Container.ClassLayout
import StubJar.Proofs.Container.Geometry

/-!
# The members of a class in their lists

The four lists of a class hold its members and nothing else, each member with
its own index, and stand in the order of the references (`statics_eq`,
`directs_eq` and their siblings). What a class mentions is mentioned by the
file. Where no method is listed twice, the index of a method tells it apart from
all others of the file (`method_unique`).
-/

namespace StubJar.Container

open StubJar.Dalvik StubJar.Order

/-! ## What a file mentions -/

section Mentions

variable {f : File} {c : ClassDecl}

/-- A file mentions what its classes do. -/
theorem mentions_of_class {m : Mention} (hc : c ∈ f.classes) (hm : m ∈ c.mentions) :
    m ∈ f.mentions := List.mem_flatMap.mpr ⟨c, hc, hm⟩

/-- It mentions what their annotations do. -/
theorem mentions_of_annotation {a : Annotation} (hc : c ∈ f.classes) (ha : a ∈ c.annotations) :
    ∀ m ∈ a.mentions, m ∈ f.mentions :=
  fun _ hm => mentions_of_class hc (c.annotation_mentions ha hm)

/-- It mentions what their fields do. -/
theorem mentions_of_field {x : Field} (hc : c ∈ f.classes) (hx : x ∈ c.fields) :
    ∀ m ∈ x.mentions, m ∈ f.mentions := fun _ hm => mentions_of_class hc (c.field_mentions hx hm)

/-- It mentions what their methods do. -/
theorem mentions_of_method {x : Method} (hc : c ∈ f.classes) (hx : x ∈ c.methods) :
    ∀ m ∈ x.mentions, m ∈ f.mentions := fun _ hm => mentions_of_class hc (c.method_mentions hx hm)

/-- It mentions the fields. -/
theorem field_mentioned {x : Field} (hc : c ∈ f.classes) (hx : x ∈ c.fields) :
    x.ref ∈ f.mentions.flatMap Mention.fields :=
  List.mem_flatMap.mpr ⟨.field x.ref, mentions_of_field hc hx _ List.mem_cons_self,
    by simp [Mention.fields]⟩

/-- It mentions the methods. -/
theorem method_mentioned {x : Method} (hc : c ∈ f.classes) (hx : x ∈ c.methods) :
    x.ref ∈ f.mentions.flatMap Mention.methods :=
  List.mem_flatMap.mpr ⟨.method x.ref, mentions_of_method hc hx _ List.mem_cons_self,
    by simp [Mention.methods]⟩

/-- It mentions what the values of fields do. -/
theorem mentions_of_initial {x : Field} {v : Value} (hc : c ∈ f.classes) (hx : x ∈ c.fields)
    (hv : x.initial = some v) : ∀ m ∈ v.mentions, m ∈ f.mentions := by
  intro m hm
  refine mentions_of_field hc hx m (List.mem_cons_of_mem _ (List.mem_append_left _ ?_))
  rw [hv]
  exact hm

/-- It mentions what the annotations of fields do. -/
theorem mentions_of_field_annotation {x : Field} {a : Annotation} (hc : c ∈ f.classes)
    (hx : x ∈ c.fields) (ha : a ∈ x.annotations) : ∀ m ∈ a.mentions, m ∈ f.mentions := fun m hm =>
  mentions_of_field hc hx m (List.mem_cons_of_mem _ (List.mem_append_right _
    (List.mem_flatMap.mpr ⟨a, ha, hm⟩)))

/-- It mentions what those of methods and parameters do. -/
theorem mentions_of_method_annotation {x : Method} {a : Annotation} (hc : c ∈ f.classes)
    (hx : x ∈ c.methods) (ha : a ∈ x.annotations ∨ a ∈ x.parameterAnnotations.flatten) :
    ∀ m ∈ a.mentions, m ∈ f.mentions := by
  intro m hm
  refine mentions_of_method hc hx m (List.mem_cons_of_mem _ ?_)
  rw [List.mem_append]
  exact ha.imp (fun ha => List.mem_flatMap.mpr ⟨a, ha, hm⟩)
    (fun ha => List.mem_flatMap.mpr ⟨a, ha, hm⟩)

/-- It mentions the types of classes and of their parents. -/
theorem type_mentioned {d : Descriptor} (hc : c ∈ f.classes) (hd : d ∈ c.type :: c.parents) :
    d ∈ f.mentions.flatMap Mention.types := by
  refine List.mem_flatMap.mpr ⟨.type d, mentions_of_class hc ?_, by simp [Mention.types]⟩
  simp only [ClassDecl.mentions, List.mem_append]
  exact Or.inl (Or.inl (Or.inl (Or.inl (List.mem_map.mpr ⟨d, hd, rfl⟩))))

/-- It mentions the files that classes are from. -/
theorem sourceFile_mentioned {s : String} (hc : c ∈ f.classes) (hs : c.sourceFile = some s) :
    s ∈ f.mentions.flatMap Mention.strings := by
  refine List.mem_flatMap.mpr ⟨.string s, mentions_of_class hc ?_, by simp [Mention.strings]⟩
  simp only [ClassDecl.mentions, List.mem_append]
  exact Or.inl (Or.inl (Or.inl (Or.inr (by simp [hs]))))

end Mentions

/-! ## Members with their indices -/

section Members

variable {p : Pool} {c : ClassDecl}

/-- Sorting by index loses nothing. -/
theorem mem_byIndex {α : Type} {items : List (Nat × α)} {x : Nat × α} :
    x ∈ Members.byIndex items ↔ x ∈ items := mem_sortOn

/-- The fields of a class stand at their indices. -/
theorem mem_fields {i : Nat} {x : Field} :
    (i, x) ∈ (Members.ofClass p c).fields ↔ x ∈ c.fields ∧ i = p.field x.ref := by
  simp only [Members.fields, Members.ofClass, List.mem_append, mem_byIndex, List.mem_filter,
    List.mem_map, Prod.mk.injEq, Bool.not_eq_true']
  constructor
  · rintro (⟨⟨y, hy, rfl, rfl⟩, _⟩ | ⟨⟨y, hy, rfl, rfl⟩, _⟩) <;> exact ⟨hy, rfl⟩
  · rintro ⟨hx, rfl⟩
    cases static : x.isStatic
    · exact Or.inr ⟨⟨x, hx, rfl, rfl⟩, rfl⟩
    · exact Or.inl ⟨⟨x, hx, rfl, rfl⟩, rfl⟩

theorem mem_methods {i : Nat} {x : Method} :
    (i, x) ∈ (Members.ofClass p c).methods ↔ x ∈ c.methods ∧ i = p.method x.ref := by
  simp only [Members.methods, Members.ofClass, List.mem_append, mem_byIndex, List.mem_filter,
    List.mem_map, Prod.mk.injEq, Bool.not_eq_true']
  constructor
  · rintro (⟨⟨y, hy, rfl, rfl⟩, _⟩ | ⟨⟨y, hy, rfl, rfl⟩, _⟩) <;> exact ⟨hy, rfl⟩
  · rintro ⟨hx, rfl⟩
    cases direct : x.flags.isDirect
    · exact Or.inr ⟨⟨x, hx, rfl, rfl⟩, rfl⟩
    · exact Or.inl ⟨⟨x, hx, rfl, rfl⟩, rfl⟩

/-- Members sorted by their indices are the members sorted by any keys that
compare as the indices do, each with its index. -/
theorem byIndex_map {α : Type} {index : α → Nat} {keys : α → List Key} {items : List α}
    (alike : ∀ a ∈ items, ∀ b ∈ items, keyLE [index a] [index b] = keysLE (keys a) (keys b)) :
    Members.byIndex (items.map fun a => (index a, a))
      = (sortOnKeys keys items).map fun a => (index a, a) := by
  rw [Members.byIndex, ← sortOn_eq_sortOnKeys (fun a => [index a]) alike,
    map_sortOn (fun a => [index a])]
  exact fun a _ b _ => rfl

end Members

section Lists

variable {f : File} {c : ClassDecl}

/-- The indices of fields compare as their texts do. -/
theorem compare_field_refs (hc : c ∈ f.classes) {keep : Field → Bool} :
    ∀ x ∈ c.fields.filter keep, ∀ y ∈ c.fields.filter keep,
      keyLE [(poolOf f).field x.ref] [(poolOf f).field y.ref]
        = keysLE (keysOf x.ref.texts) (keysOf y.ref.texts) := fun _ hx _ hy =>
  compare_fields (field_mentioned hc (List.mem_filter.mp hx).1)
    (field_mentioned hc (List.mem_filter.mp hy).1)

theorem compare_method_refs (hc : c ∈ f.classes) {keep : Method → Bool} :
    ∀ x ∈ c.methods.filter keep, ∀ y ∈ c.methods.filter keep,
      keyLE [(poolOf f).method x.ref] [(poolOf f).method y.ref]
        = keysLE (keysOf x.ref.texts) (keysOf y.ref.texts) := fun _ hx _ hy =>
  compare_methods (method_mentioned hc (List.mem_filter.mp hx).1)
    (method_mentioned hc (List.mem_filter.mp hy).1)

/-- The static fields of a class are written in the order of their references. -/
theorem statics_eq (hc : c ∈ f.classes) :
    (Members.ofClass (poolOf f) c).statics
      = (inFieldOrder (c.fields.filter Field.isStatic)).map
        fun x => ((poolOf f).field x.ref, x) := by
  rw [inFieldOrder, ← byIndex_map (compare_field_refs hc)]
  simp only [Members.ofClass, List.filter_map]
  rfl

theorem instances_eq (hc : c ∈ f.classes) :
    (Members.ofClass (poolOf f) c).instances
      = (inFieldOrder (c.fields.filter (!·.isStatic))).map
        fun x => ((poolOf f).field x.ref, x) := by
  rw [inFieldOrder, ← byIndex_map (compare_field_refs hc)]
  simp only [Members.ofClass, List.filter_map]
  rfl

theorem directs_eq (hc : c ∈ f.classes) :
    (Members.ofClass (poolOf f) c).directs
      = (inMethodOrder (c.methods.filter (·.flags.isDirect))).map
        fun x => ((poolOf f).method x.ref, x) := by
  rw [inMethodOrder, ← byIndex_map (compare_method_refs hc)]
  simp only [Members.ofClass, List.filter_map]
  rfl

theorem virtuals_eq (hc : c ∈ f.classes) :
    (Members.ofClass (poolOf f) c).virtuals
      = (inMethodOrder (c.methods.filter (!·.flags.isDirect))).map
        fun x => ((poolOf f).method x.ref, x) := by
  rw [inMethodOrder, ← byIndex_map (compare_method_refs hc)]
  simp only [Members.ofClass, List.filter_map]
  rfl

/-! ## Methods listed once -/

/-- If no method is listed twice, a reference is that of one method. -/
theorem method_unique {d : ClassDecl} (distinct : f.MethodsDistinct) (hc : c ∈ f.classes)
    (hd : d ∈ f.classes) {x y : Method} (hx : x ∈ c.methods) (hy : y ∈ d.methods)
    (same : x.ref = y.ref) : x = y :=
  List.inj_on_of_nodup_map distinct (List.mem_flatMap.mpr ⟨c, hc, hx⟩)
    (List.mem_flatMap.mpr ⟨d, hd, hy⟩) same

theorem index_unique {d : ClassDecl} (distinct : f.MethodsDistinct) (hc : c ∈ f.classes)
    (hd : d ∈ f.classes) {x y : Method} (hx : x ∈ c.methods) (hy : y ∈ d.methods)
    (same : (poolOf f).method x.ref = (poolOf f).method y.ref) : x = y :=
  method_unique distinct hc hd hx hy
    (Table.indexOf_injective _ (method_mentioned hc hx) (method_mentioned hd hy) same)

/-- All fields of a class are written. -/
theorem fields_perm (p : Pool) (c : ClassDecl) :
    (Members.ofClass p c).fields.Perm (c.fields.map fun x => (p.field x.ref, x)) :=
  ((sortOn_perm _ _).append (sortOn_perm _ _)).trans (List.filter_append_perm _ _)

/-- All methods of a class are written. -/
theorem methods_perm (p : Pool) (c : ClassDecl) :
    (Members.ofClass p c).methods.Perm (c.methods.map fun m => (p.method m.ref, m)) :=
  ((sortOn_perm _ _).append (sortOn_perm _ _)).trans (List.filter_append_perm _ _)

/-- The methods of a class have distinct indices. -/
theorem indices_nodup (distinct : f.MethodsDistinct) (hc : c ∈ f.classes) :
    ((Members.ofClass (poolOf f) c).methods.map Prod.fst).Nodup := by
  have perm := (methods_perm (poolOf f) c).map Prod.fst
  rw [perm.nodup_iff, List.map_map]
  refine List.Nodup.map_on (fun x hx y hy same => index_unique distinct hc hc hx hy same) ?_
  have refs : (c.methods.map Method.ref).Nodup := by
    rw [File.MethodsDistinct, List.map_flatMap, List.nodup_flatMap] at distinct
    exact distinct.1 c hc
  exact refs.of_map _

/-! ## Classes at their positions -/

/-- A class stands at its position, with its members. -/
theorem mem_placedOf {x : Placed} :
    x ∈ placedOf f ↔ f.classes[x.position]? = some x.type
      ∧ x.members = Members.ofClass (poolOf f) x.type := by
  simp only [placedOf, placeClasses, List.mem_map, Prod.exists, List.mk_mem_zipIdx_iff_getElem?]
  constructor
  · rintro ⟨c, i, stands, rfl⟩
    exact ⟨stands, rfl⟩
  · rintro ⟨stands, members⟩
    refine ⟨x.type, x.position, stands, ?_⟩
    rw [← members]

/-- A class is determined by its position. -/
theorem placed_unique {x y : Placed} (hx : x ∈ placedOf f) (hy : y ∈ placedOf f)
    (same : x.position = y.position) : x = y := by
  obtain ⟨hx, members_x⟩ := mem_placedOf.mp hx
  obtain ⟨hy, members_y⟩ := mem_placedOf.mp hy
  rw [same, hy] at hx
  have type : y.type = x.type := Option.some.inj hx
  cases x
  cases y
  simp_all

/-- At a position stands the class that the file has there. -/
theorem getElem?_placedOf (i : Nat) :
    (placedOf f)[i]? = f.classes[i]?.map fun c => ⟨i, c, Members.ofClass (poolOf f) c⟩ := by
  simp only [placedOf, placeClasses, List.getElem?_map, List.getElem?_zipIdx, Option.map_map,
    Nat.zero_add]
  rfl

section Offsets

variable {order : List Nat} {b bytes : List UInt8} {kind : ItemKind} {start : Nat}
  {item? : Placed → Option (List UInt8)} {x : Placed}

/-- Where the item of a class is found, in a run that has one for some of the
classes. -/
theorem Writes.optional_at (h : Writes f order b) (signed : Stands bytes 32 (signedOf f order))
    (mem : (Run.ofOptional kind start ((placedOf f).map item?)).1 ∈ (layoutOf f).runs)
    (hx : x ∈ placedOf f) : FoundAt bytes (item? x)
      ((Run.ofOptional kind start ((placedOf f).map item?)).2.getD x.position 0) := by
  obtain ⟨stands, members⟩ := mem_placedOf.mp hx
  refine foundAt_getD (h.optional_items_at signed mem) ?_
  rw [List.getElem?_map, getElem?_placedOf, stands, Option.map_some, Option.map_some, ← members]

/-- An item that a class may have is found at the offset that is kept for the class. -/
theorem Legible.optional_at (h : Legible f order b)
    (mem : (Run.ofOptional kind start ((placedOf f).map item?)).1 ∈ (layoutOf f).runs)
    (hx : x ∈ placedOf f) : FoundAt b (item? x)
      ((Run.ofOptional kind start ((placedOf f).map item?)).2.getD x.position 0) :=
  h.toWrites.optional_at h.stands_signed mem hx

end Offsets

end Lists

end StubJar.Container
