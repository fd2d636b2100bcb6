import StubJar.Container.ClassTable
import StubJar.Proofs.Container.MemberOrder
import StubJar.Proofs.Container.TableRows

/-!
# Annotations read back

What is attached to an owner is found again through the maps of offsets that
writing keeps. `given f owner` is the set that the file has for an owner; where
it has several, the last that is not empty. Reading at the offset of an owner
gives that set in its normal form (`Legible.set_at`), reading the list of a
method gives a set for each parameter (`Legible.parameters_at`), and reading the
directory of a class gives all of them by index (`Legible.directory_at`).
-/

namespace StubJar.Container

open StubJar.Bytes StubJar.Dalvik StubJar.Order

/-- The container of a file as it is opened. -/
def openedOf (f : File) (b : List UInt8) : Opened :=
  ⟨writtenVersion (poolOf f) f, b, Image.ofBytes b, (poolOf f).tables⟩

/-- The sets of a file that are not empty, with their owners. -/
def owned (f : File) : List (SetOwner × List Annotation) := (placedOf f).flatMap Placed.sets

/-- The annotations that a file has for an owner. -/
def given (f : File) (owner : SetOwner) : List Annotation := (lastFor (owned f) owner).getD []

/-- The offsets of the sets by their owners. -/
def setOffsetsOf (f : File) : Std.HashMap SetOwner Nat :=
  Std.HashMap.ofList (((owned f).map Prod.fst).zip (layoutOf f).annotations.sets.offsets.toList)

/-- The lists of the sets of parameters, with the class and the index of the
method of each. -/
def parameterListsOf (f : File) : List ((Nat × Nat) × List UInt8) :=
  (placedOf f).flatMap fun c =>
    c.members.methods.filterMap (AnnotationLayout.parameterList? (setOffsetsOf f) c.position)

/-- The offsets of these lists. -/
def listOffsetsOf (f : File) : Std.HashMap (Nat × Nat) Nat :=
  Std.HashMap.ofList
    (((parameterListsOf f).map Prod.fst).zip (layoutOf f).annotations.lists.offsets.toList)

/-! ## What is given -/

section Given

variable {f : File} {c : Placed}

/-- An owner with one set gets that set. -/
theorem given_of_unique {owner : SetOwner} {annotations : List Annotation}
    (listed : annotations ≠ [] → (owner, annotations) ∈ owned f)
    (unique : ∀ x, (owner, x) ∈ owned f → x = annotations) : given f owner = annotations := by
  rw [given]
  cases annotations with
  | nil =>
    cases found : lastFor (owned f) owner with
    | none => rfl
    | some x => exact unique x (mem_of_lastFor found)
  | cons a annotations => rw [lastFor_of_unique (listed (by simp)) unique, Option.getD_some]

/-- Sets belong to classes, members and parameters, unless they are empty. -/
theorem mem_owned {owner : SetOwner} {annotations : List Annotation} :
    (owner, annotations) ∈ owned f ↔ annotations ≠ [] ∧ ∃ c ∈ placedOf f,
      (owner = .type c.position ∧ annotations = c.type.annotations)
        ∨ (∃ x ∈ c.members.fields, owner = .field c.position x.1 ∧ annotations = x.2.annotations)
        ∨ (∃ x ∈ c.members.methods, owner = .method c.position x.1 ∧ annotations = x.2.annotations)
        ∨ ∃ x ∈ c.members.methods, ∃ k, owner = .parameter c.position x.1 k
          ∧ x.2.parameterAnnotations[k]? = some annotations := by
  simp only [owned, List.mem_flatMap, Placed.sets, Placed.parameterSets, List.mem_filter,
    List.mem_append, List.mem_singleton, List.mem_map, Prod.mk.injEq, Bool.not_eq_true',
    List.isEmpty_eq_false_iff, Prod.exists, List.mk_mem_zipIdx_iff_getElem?]
  constructor
  · rintro ⟨c, hc, h, some⟩
    refine ⟨some, c, hc, ?_⟩
    rcases h with ((⟨rfl, rfl⟩ | ⟨i, x, hx, rfl, rfl⟩) | ⟨i, x, hx, rfl, rfl⟩)
      | ⟨i, x, hx, as, k, hk, rfl, rfl⟩
    · exact Or.inl ⟨rfl, rfl⟩
    · exact Or.inr (Or.inl ⟨i, x, hx, rfl, rfl⟩)
    · exact Or.inr (Or.inr (Or.inl ⟨i, x, hx, rfl, rfl⟩))
    · exact Or.inr (Or.inr (Or.inr ⟨i, x, hx, k, rfl, hk⟩))
  · rintro ⟨some, c, hc, h⟩
    refine ⟨c, hc, ?_, some⟩
    rcases h with ⟨rfl, rfl⟩ | ⟨i, x, hx, rfl, rfl⟩ | ⟨i, x, hx, rfl, rfl⟩ | ⟨i, x, hx, k, rfl, hk⟩
    · exact Or.inl (Or.inl (Or.inl ⟨rfl, rfl⟩))
    · exact Or.inl (Or.inl (Or.inr ⟨i, x, hx, rfl, rfl⟩))
    · exact Or.inl (Or.inr ⟨i, x, hx, rfl, rfl⟩)
    · exact Or.inr ⟨i, x, hx, _, k, hk, rfl, rfl⟩

/-- What is given for a class are its annotations. -/
theorem given_type (hc : c ∈ placedOf f) : given f (.type c.position) = c.type.annotations := by
  refine given_of_unique (fun some => mem_owned.mpr ⟨some, c, hc, Or.inl ⟨rfl, rfl⟩⟩) fun x hx => ?_
  obtain ⟨_, d, hd, ⟨same, rfl⟩ | ⟨_, _, same, _⟩ | ⟨_, _, same, _⟩ | ⟨_, _, _, same, _⟩⟩ :=
    mem_owned.mp hx
  · rw [placed_unique hc hd (SetOwner.type.inj same)]
  all_goals cases same

/-- Methods of one index are one method. -/
theorem same_method (distinct : f.MethodsDistinct) {d : Placed} (hc : c ∈ placedOf f)
    (hd : d ∈ placedOf f) {i : Nat} {x y : Method} (hx : (i, x) ∈ c.members.methods)
    (hy : (i, y) ∈ d.members.methods) : x = y := by
  obtain ⟨stands_c, members_c⟩ := mem_placedOf.mp hc
  obtain ⟨stands_d, members_d⟩ := mem_placedOf.mp hd
  rw [members_c, mem_methods] at hx
  rw [members_d, mem_methods] at hy
  exact index_unique distinct (List.mem_of_getElem? stands_c) (List.mem_of_getElem? stands_d) hx.1 hy.1
    (hx.2.symm.trans hy.2)

/-- What is given for a method are those of the method, if it is listed once. -/
theorem given_method (distinct : f.MethodsDistinct) (hc : c ∈ placedOf f) {i : Nat} {m : Method}
    (hm : (i, m) ∈ c.members.methods) : given f (.method c.position i) = m.annotations := by
  refine given_of_unique (fun some => mem_owned.mpr
    ⟨some, c, hc, Or.inr (Or.inr (Or.inl ⟨(i, m), hm, rfl, rfl⟩))⟩) fun x hx => ?_
  obtain ⟨_, d, hd, ⟨same, _⟩ | ⟨_, _, same, _⟩ | ⟨⟨j, n⟩, hn, same, rfl⟩ | ⟨_, _, _, same, _⟩⟩ :=
    mem_owned.mp hx
  · cases same
  · cases same
  · obtain ⟨_, rfl⟩ := SetOwner.method.inj same
    rw [same_method distinct hc hd hm hn]
  · cases same

theorem given_parameter (distinct : f.MethodsDistinct) (hc : c ∈ placedOf f) {i k : Nat} {m : Method}
    (hm : (i, m) ∈ c.members.methods) {annotations : List Annotation}
    (hk : m.parameterAnnotations[k]? = some annotations) :
    given f (.parameter c.position i k) = annotations := by
  refine given_of_unique (fun some => mem_owned.mpr
    ⟨some, c, hc, Or.inr (Or.inr (Or.inr ⟨(i, m), hm, k, rfl, hk⟩))⟩) fun x hx => ?_
  obtain ⟨_, d, hd, ⟨same, _⟩ | ⟨_, _, same, _⟩ | ⟨_, _, same, _⟩ | ⟨⟨j, n⟩, hn, l, same, hl⟩⟩ :=
    mem_owned.mp hx
  · cases same
  · cases same
  · cases same
  · obtain ⟨_, rfl, rfl⟩ := SetOwner.parameter.inj same
    rw [same_method distinct hc hd hm hn, hl] at hk
    exact Option.some.inj hk

/-- Whatever is given is mentioned. -/
theorem given_mentioned {owner : SetOwner} {annotations : List Annotation}
    (h : (owner, annotations) ∈ owned f) : ∀ a ∈ annotations, ∀ m ∈ a.mentions, m ∈ f.mentions := by
  intro a ha
  obtain ⟨_, c, hc, which⟩ := mem_owned.mp h
  obtain ⟨stands, members⟩ := mem_placedOf.mp hc
  have inside := List.mem_of_getElem? stands
  rw [members] at which
  rcases which with ⟨_, rfl⟩ | ⟨⟨i, x⟩, hx, _, rfl⟩ | ⟨⟨i, x⟩, hx, _, rfl⟩ | ⟨⟨i, x⟩, hx, k, _, hk⟩
  · exact mentions_of_annotation inside ha
  · exact mentions_of_field_annotation inside (mem_fields.mp hx).1 ha
  · exact mentions_of_method_annotation inside (mem_methods.mp hx).1 (Or.inl ha)
  · exact mentions_of_method_annotation inside (mem_methods.mp hx).1
      (Or.inr (List.mem_flatten.mpr ⟨annotations, List.mem_of_getElem? hk, ha⟩))

end Given

/-! ## Sets and lists at their offsets -/

/-- What is related item by item is related group by group. -/
theorem offsetsByGroup_related {α : Type} {R : α → Nat → Prop} {groups : List (List α)}
    {offsets : List Nat} (related : List.Forall₂ R groups.flatten offsets) :
    List.Forall₂ (List.Forall₂ R) groups (offsetsByGroup groups offsets) := by
  induction groups generalizing offsets with
  | nil => exact .nil
  | cons group groups ih =>
    have first := List.forall₂_take group.length related
    have rest := List.forall₂_drop group.length related
    rw [List.flatten_cons, List.take_left] at first
    rw [List.flatten_cons, List.drop_left] at rest
    exact .cons first (ih rest)

/-- Every set stands at its offset and lists the offsets at which its annotations stand,
in their order. -/
theorem Writes.entries_at {f : File} {order : List Nat} {b bytes : List UInt8} (h : Writes f order b)
    (signed : Stands bytes 32 (signedOf f order)) :
    List.Forall₂ (fun (x : SetOwner × List Annotation) offset => ∃ entries,
      List.Forall₂ (fun a entry => Stands bytes entry (encodeAnnotationItem (poolOf f) a))
        (orderedSet (poolOf f) x.2) entries ∧ 0 < offset ∧ Stands bytes offset (offsetList entries))
      (owned f) (layoutOf f).annotations.sets.offsets.toList := by
  have items_run : (layoutOf f).annotations.items ∈ (layoutOf f).runs := by
    simp [Layout.runs, AnnotationLayout.runs]
  have sets_run : (layoutOf f).annotations.sets ∈ (layoutOf f).runs := by
    simp [Layout.runs, AnnotationLayout.runs]
  have items : List.Forall₂ (fun item offset => 0 < offset ∧ Stands bytes offset item)
      (((owned f).map fun x => orderedSet (poolOf f) x.2).flatten.map
        (encodeAnnotationItem (poolOf f))) (layoutOf f).annotations.items.offsets.toList :=
    h.items_at signed items_run
  have sets : List.Forall₂ (fun item offset => 0 < offset ∧ Stands bytes offset item)
      ((offsetsByGroup ((owned f).map fun x => orderedSet (poolOf f) x.2)
        (layoutOf f).annotations.items.offsets.toList).map offsetList)
      (layoutOf f).annotations.sets.offsets.toList := h.items_at signed sets_run
  rw [List.forall₂_map_left_iff] at items sets
  have both := forall₂_comp (List.forall₂_map_left_iff.mp (offsetsByGroup_related items)) sets
  refine both.imp fun x offset related => ?_
  obtain ⟨entries, _, each, positive, stands⟩ := related
  exact ⟨entries, each.imp fun _ _ => And.right, positive, stands⟩

/-- A set in the order of its types is the normal form of the set. -/
theorem orderedSet_normal {ms : List Mention} {annotations : List Annotation}
    (mentioned : ∀ a ∈ annotations, ∀ m ∈ a.mentions, m ∈ ms) :
    (orderedSet (Pool.ofMentions ms) annotations).map Annotation.normal = normalSet annotations := by
  rw [orderedSet, normalSet]
  refine map_sortOn _ fun a ha b hb => ?_
  have type : ∀ a ∈ annotations, a.type ∈ ms.flatMap Mention.types := fun a ha =>
    List.mem_flatMap.mpr ⟨.type a.type, mentioned a ha _ List.mem_cons_self, by simp [Mention.types]⟩
  exact compare_types (type a ha) (type b hb)

namespace Legible

variable {f : File} {order : List Nat} {b : List UInt8}

/-- The tables that are read answer as those that were written. -/
theorem indexed (h : Legible f order b) : Indexed (poolOf f) (poolOf f).tables f.mentions :=
  indexed_tables h.small_pool

/-- An annotation is read where it stands. -/
theorem annotation_at (h : Legible f order b) {a : Annotation} {offset : Nat}
    (mentioned : ∀ m ∈ a.mentions, m ∈ f.mentions)
    (stands : Stands b offset (encodeAnnotationItem (poolOf f) a)) :
    (Image.ofBytes b).decodeAt offset
      (decodeAnnotationItem (openedOf f b).tables (openedOf f b).depth) = .ok a.normal := by
  have bound := stands.bound
  have shallow : (encodeAnnotationItem (poolOf f) a).length ≤ (openedOf f b).depth := by
    simp only [Opened.depth, openedOf]
    omega
  exact stands.decodeAt (reads_annotationItem h.indexed mentioned shallow (h.length_lt stands))

/-- Every set is read where it stands. -/
theorem sets_at (h : Legible f order b) :
    List.Forall₂ (fun (x : SetOwner × List Annotation) offset => 0 < offset ∧ offset < 2 ^ 32
      ∧ (openedOf f b).annotationsAt offset = .ok (normalSet x.2))
      (owned f) (layoutOf f).annotations.sets.offsets.toList := by
  have all := (List.forall₂_and_left _ _).mpr
    ⟨fun x (hx : x ∈ owned f) => given_mentioned hx, h.entries_at h.stands_signed⟩
  refine all.imp fun x offset related => ?_
  obtain ⟨mentioned, offsets, each, positive, stands⟩ := related
  refine ⟨positive, h.offset_lt stands, ?_⟩
  have short := h.length_lt stands
  have length : offsets.length = ((orderedSet (poolOf f) x.2).map Annotation.normal).length := by
    rw [List.length_map, each.length_eq]
  have reads : List.Forall₂ (Reads (do
      let item ← Decoder.number 4
      (openedOf f b).image.decodeAt item
        (decodeAnnotationItem (openedOf f b).tables (openedOf f b).depth)))
      (offsets.map (le 4)) ((orderedSet (poolOf f) x.2).map Annotation.normal) := by
    rw [List.forall₂_map_left_iff, List.forall₂_map_right_iff]
    have known := (List.forall₂_and_left _ _).mpr
      ⟨fun a (ha : a ∈ orderedSet (poolOf f) x.2) => mentioned a (mem_sortOn.mp ha), each⟩
    refine known.flip.imp fun o a found => ?_
    exact (Reads.number (h.offset_lt found.2)).bind_lift (h.annotation_at found.1 found.2)
  rw [offsetList, List.length_append, length_flatMap_of fun _ _ => length_le 4 _] at short
  rw [Opened.annotationsAt, ← orderedSet_normal mentioned]
  refine stands.listAt positive ?_
  rw [offsetList, List.flatMap_def, length]
  exact (Reads.number (by omega)).bind (Reads.times reads)

/-- Where a set is given, there is an offset at which its normal form is read. -/
theorem setOffsets_related (h : Legible f order b) (owner : SetOwner) :
    Option.Rel (fun annotations offset => 0 < offset ∧ offset < 2 ^ 32
      ∧ (openedOf f b).annotationsAt offset = .ok (normalSet annotations))
      (lastFor (owned f) owner) (setOffsetsOf f)[owner]? := by
  have sets := h.sets_at
  rw [← List.forall₂_map_left_iff (f := Prod.snd)
    (R := fun annotations offset => 0 < offset ∧ offset < 2 ^ 32
      ∧ (openedOf f b).annotationsAt offset = .ok (normalSet annotations))] at sets
  have related := lastFor_zip sets ((owned f).map Prod.fst) owner
  have zipped : ((owned f).map Prod.fst).zip ((owned f).map Prod.snd) = owned f :=
    (List.zip_of_prod rfl rfl).symm
  rwa [zipped, ← getElem?_ofList ((List.map Prod.fst (owned f)).zip _)] at related

/-- The offset of an owner is that of what is given for it. -/
theorem set_at (h : Legible f order b) {owner : SetOwner} {offset : Nat}
    (found : (setOffsetsOf f)[owner]? = some offset) :
    offset < 2 ^ 32
      ∧ (openedOf f b).annotationsAt offset = .ok (normalSet (given f owner)) := by
  have related := h.setOffsets_related owner
  rw [found] at related
  rw [given]
  cases lists : lastFor (owned f) owner with
  | none => rw [lists] at related; cases related
  | some annotations =>
    rw [lists] at related
    cases related with
    | some holds => exact ⟨holds.2.1, holds.2.2⟩

/-- An owner without an offset is given nothing. -/
theorem given_eq_nil (h : Legible f order b) {owner : SetOwner}
    (none : (setOffsetsOf f)[owner]? = none) : given f owner = [] := by
  have related := h.setOffsets_related owner
  rw [none] at related
  rw [given]
  cases lists : lastFor (owned f) owner with
  | none => rfl
  | some annotations => rw [lists] at related; cases related

/-- What is read for an owner is the normal form of what it was given, or nothing. -/
theorem set_getD (h : Legible f order b) (owner : SetOwner) :
    (setOffsetsOf f).getD owner 0 < 2 ^ 32
      ∧ (openedOf f b).annotationsAt ((setOffsetsOf f).getD owner 0)
        = .ok (normalSet (given f owner)) := by
  rw [Std.HashMap.getD_eq_getD_getElem?]
  cases found : (setOffsetsOf f)[owner]? with
  | some offset => exact h.set_at found
  | none =>
    rw [h.given_eq_nil found, Option.getD_none, Opened.annotationsAt, listAt_zero, normalSet_nil]
    exact ⟨by decide, rfl⟩

/-! ## Lists of sets -/

variable {c : Placed} {i : Nat} {m : Method}

/-- Lists are written for methods with marked parameters. -/
theorem mem_parameterLists {key : Nat × Nat} {item : List UInt8} :
    (key, item) ∈ parameterListsOf f ↔ ∃ c ∈ placedOf f, ∃ i m, (i, m) ∈ c.members.methods
      ∧ AnnotationLayout.parameterList? (setOffsetsOf f) c.position (i, m) = some (key, item) := by
  simp only [parameterListsOf, List.mem_flatMap, List.mem_filterMap, Prod.exists]

/-- The list of a method holds the offset of each of its parameters. -/
theorem parameterList_eq_some {c i : Nat} {m : Method} {key : Nat × Nat} {item : List UInt8} :
    AnnotationLayout.parameterList? (setOffsetsOf f) c (i, m) = some (key, item) ↔
      m.parameterAnnotations ≠ [] ∧ key = (c, i)
        ∧ item = offsetList ((List.range m.parameterAnnotations.length).map fun k =>
          (setOffsetsOf f).getD (.parameter c i k) 0) := by
  rw [AnnotationLayout.parameterList?]
  split
  · rename_i none
    have none := List.isEmpty_iff.mp none
    constructor
    · intro h
      cases h
    · rintro ⟨some, _⟩
      exact absurd none some
  · rename_i some
    have some : m.parameterAnnotations ≠ [] := fun none => some (List.isEmpty_iff.mpr none)
    rw [Option.some.injEq, Prod.mk.injEq, and_iff_right some, eq_comm, eq_comm (a := item)]

/-- A list of sets gives the set of each parameter. -/
theorem reads_parameterList (h : Legible f order b) (hc : c ∈ placedOf f)
    (hm : (i, m) ∈ c.members.methods) (few : m.parameterAnnotations.length < 256 ^ 4) :
    Reads (do
        let size ← Decoder.number 4
        Decoder.times size do
          let set ← Decoder.number 4
          (openedOf f b).annotationsAt set)
      (offsetList ((List.range m.parameterAnnotations.length).map fun k =>
        (setOffsetsOf f).getD (.parameter c.position i k) 0))
      (m.parameterAnnotations.map normalSet) := by
  have sets : m.parameterAnnotations.map normalSet
      = (List.range m.parameterAnnotations.length).map fun k =>
        normalSet (given f (.parameter c.position i k)) := by
    refine List.ext_getElem (by simp) fun k hk _ => ?_
    rw [List.length_map] at hk
    rw [List.getElem_map, List.getElem_map, List.getElem_range,
      given_parameter h.distinct hc hm (List.getElem?_eq_getElem hk)]
  rw [offsetList, List.length_map, List.length_range, List.flatMap_map, sets]
  refine (Reads.number few).bind ?_
  have each : ∀ k ∈ List.range m.parameterAnnotations.length,
      Reads (Decoder.number 4 >>= fun set => liftM ((openedOf f b).annotationsAt set))
        (le 4 ((setOffsetsOf f).getD (.parameter c.position i k) 0))
        (normalSet (given f (.parameter c.position i k))) := fun k _ =>
    (Reads.number (h.set_getD _).1).bind_lift (h.set_getD _).2
  have read := Reads.times_map each
  rwa [List.length_range] at read

/-- The list of the sets of the parameters of a method is read where it
stands; only a method without any has none. -/
theorem parameters_at (h : Legible f order b) (hc : c ∈ placedOf f)
    (hm : (i, m) ∈ c.members.methods) :
    Option.elim (listOffsetsOf f)[(c.position, i)]? (m.parameterAnnotations = [])
      fun offset => offset < 2 ^ 32 ∧ (openedOf f b).parameterAnnotationsAt offset
        = .ok (m.parameterAnnotations.map normalSet) := by
  have run : (layoutOf f).annotations.lists ∈ (layoutOf f).runs := by
    simp [Layout.runs, AnnotationLayout.runs]
  have found : List.Forall₂ (fun item offset => 0 < offset ∧ Stands b offset item)
      ((parameterListsOf f).map Prod.snd) (layoutOf f).annotations.lists.offsets.toList :=
    h.items_found run
  have related := lastFor_zip found ((parameterListsOf f).map Prod.fst) (c.position, i)
  have zipped : ((parameterListsOf f).map Prod.fst).zip ((parameterListsOf f).map Prod.snd)
      = parameterListsOf f := (List.zip_of_prod rfl rfl).symm
  rw [zipped] at related
  rw [listOffsetsOf, getElem?_ofList]
  have only : ∀ item, ((c.position, i), item) ∈ parameterListsOf f →
      m.parameterAnnotations ≠ []
        ∧ item = offsetList ((List.range m.parameterAnnotations.length).map fun k =>
          (setOffsetsOf f).getD (.parameter c.position i k) 0) := by
    intro item mem
    obtain ⟨d, hd, j, n, hn, made⟩ := mem_parameterLists.mp mem
    obtain ⟨some, key, rfl⟩ := parameterList_eq_some.mp made
    obtain ⟨position, rfl⟩ := Prod.mk.inj key
    obtain rfl := same_method h.distinct hc hd hm hn
    exact ⟨some, by rw [position]⟩
  by_cases empty : m.parameterAnnotations = []
  · have absent : lastFor (parameterListsOf f) (c.position, i) = none := by
      refine lastFor_eq_none.mpr fun mem => ?_
      obtain ⟨⟨key, item⟩, mem, rfl⟩ := List.mem_map.mp mem
      exact (only item mem).1 empty
    rw [absent] at related
    generalize lastFor _ (c.position, i) = offset? at related ⊢
    cases related
    exact empty
  · have listed := mem_parameterLists.mpr ⟨c, hc, i, m, hm,
      parameterList_eq_some.mpr ⟨empty, rfl, rfl⟩⟩
    rw [lastFor_of_unique listed fun item mem => (only item mem).2] at related
    generalize lastFor _ (c.position, i) = offset? at related ⊢
    cases related with
    | some holds =>
      have short := h.length_lt holds.2
      rw [offsetList, List.length_append, length_flatMap_of fun _ _ => length_le 4 _,
        List.length_map, List.length_range] at short
      exact ⟨h.offset_lt holds.2, holds.2.listAt holds.1 (h.reads_parameterList hc hm (by omega))⟩

end Legible

/-! ## Directories -/

section Parts

variable {α β : Type} {members : List (Nat × α)} {find? : Nat → Option Nat}

/-- The form of an entry of a directory. -/
def encodeEntry (e : Nat × Nat) : List UInt8 := le 4 e.1 ++ le 4 e.2

/-- An entry of a directory has eight bytes. -/
theorem length_entries (entries : List (Nat × Nat)) :
    (entries.flatMap fun e => le 4 e.1 ++ le 4 e.2).length = entries.length * 8 :=
  length_flatMap_of fun _ _ => by rw [List.length_append, length_le, length_le]

/-- The entries are those of members with an offset. -/
theorem mem_directoryEntries {i offset : Nat} :
    (i, offset) ∈ AnnotationLayout.directoryEntries members find? ↔
      i ∈ members.map Prod.fst ∧ find? i = some offset := by
  simp only [AnnotationLayout.directoryEntries, mem_sortOn, List.mem_filterMap, List.mem_map,
    Option.map_eq_some_iff, Prod.mk.injEq, Prod.exists, exists_and_right, exists_eq_right]
  constructor
  · rintro ⟨j, ⟨a, mem⟩, offset, found, rfl, rfl⟩
    exact ⟨⟨a, mem⟩, found⟩
  · rintro ⟨⟨a, mem⟩, found⟩
    exact ⟨i, ⟨a, mem⟩, offset, found, rfl, rfl⟩

/-- Without entries, no member has one. -/
theorem directoryEntries_eq_nil (empty : AnnotationLayout.directoryEntries members find? = [])
    {i : Nat} (mem : i ∈ members.map Prod.fst) : find? i = none := by
  cases found : find? i with
  | none => rfl
  | some offset =>
    have entry := mem_directoryEntries.mpr ⟨mem, found⟩
    rw [empty] at entry
    cases entry

/-- The map of the entries of a directory; of two for an index the later one
counts. -/
def insertAll (entries : List (Nat × β)) : Std.HashMap Nat β :=
  entries.foldl (fun found (index, a) => found.insert index a) {}

/-- A part of a directory gives under the index of a member what is read at its
offset, and nothing to a member without one. -/
theorem reads_directoryPart (find? : Nat → Option Nat) (value : Nat → β)
    (at? : Nat → Except DecodeFault β) (narrow : ∀ i ∈ members.map Prod.fst, i < 2 ^ 32)
    (each : ∀ i ∈ members.map Prod.fst, ∀ offset, find? i = some offset →
      offset < 2 ^ 32 ∧ at? offset = .ok (value i)) :
    ∃ found : Std.HashMap Nat β,
      Reads (Opened.directoryPart (AnnotationLayout.directoryEntries members find?).length at?)
        ((AnnotationLayout.directoryEntries members find?).flatMap encodeEntry) found
      ∧ ∀ i ∈ members.map Prod.fst, found[i]? = (find? i).map fun _ => value i := by
  have entries : ∀ e ∈ AnnotationLayout.directoryEntries members find?,
      Reads (do
        let index ← Decoder.number 4
        let offset ← Decoder.number 4
        return (index, ← at? offset)) (encodeEntry e) (e.1, value e.1) := by
    intro e mem
    obtain ⟨inside, found⟩ := mem_directoryEntries.mp mem
    obtain ⟨small, read⟩ := each e.1 inside e.2 found
    rw [encodeEntry, ← List.append_nil (le 4 e.2)]
    exact (Reads.number (narrow e.1 inside)).bind ((Reads.number small).bind
      ((Reads.lift read).map fun b => (e.1, b)))
  refine ⟨_, (Reads.times_map entries).map insertAll, fun i mem => ?_⟩
  rw [insertAll, getElem?_foldl_insert, Std.HashMap.getElem?_empty, Option.or_none]
  cases found : find? i with
  | none =>
    refine lastFor_eq_none.mpr fun listed => ?_
    simp only [List.map_map, List.mem_map, Function.comp] at listed
    obtain ⟨e, inside, rfl⟩ := listed
    rw [(mem_directoryEntries.mp inside).2] at found
    cases found
  | some offset =>
    refine lastFor_of_unique (List.mem_map.mpr ⟨(i, offset), mem_directoryEntries.mpr ⟨mem, found⟩,
      rfl⟩) fun b listed => ?_
    obtain ⟨e, _, same⟩ := List.mem_map.mp listed
    obtain ⟨rfl, rfl⟩ := Prod.mk.inj same
    rfl

/-- A member without an offset gets what the reader has for those, if there is nothing
to be read for it. -/
theorem getD_directoryPart {found : Std.HashMap Nat β} {i : Nat} {offset? : Option Nat}
    {value default : β} (entry : found[i]? = offset?.map fun _ => value)
    (nothing : offset? = none → value = default) : found.getD i default = value := by
  rw [Std.HashMap.getD_eq_getD_getElem?, entry]
  cases offset? with
  | some _ => rfl
  | none => exact (nothing rfl).symm

end Parts

/-- The directory gives to a class and to each of its members what is given for
it. -/
structure Describes (f : File) (c : Placed) (d : Directory) : Prop where
  type : d.type = normalSet c.type.annotations
  fields : ∀ i ∈ c.members.fields.map Prod.fst,
    d.fields.getD i [] = normalSet (given f (.field c.position i))
  methods : ∀ i m, (i, m) ∈ c.members.methods → d.methods.getD i [] = normalSet m.annotations
  parameters : ∀ i m, (i, m) ∈ c.members.methods →
    d.parameters.getD i [] = m.parameterAnnotations.map normalSet

namespace Legible

variable {f : File} {order : List Nat} {b : List UInt8} {c : Placed}

/-- A class has no directory if nothing is attached to it or to its members. -/
theorem directory?_eq_none {setOffsets : Std.HashMap SetOwner Nat}
    {listOffsets : Std.HashMap (Nat × Nat) Nat} :
    AnnotationLayout.directory? setOffsets listOffsets c = none ↔
      setOffsets[SetOwner.type c.position]? = none
      ∧ AnnotationLayout.directoryEntries c.members.fields
        (fun i => setOffsets[SetOwner.field c.position i]?) = []
      ∧ AnnotationLayout.directoryEntries c.members.methods
        (fun i => setOffsets[SetOwner.method c.position i]?) = []
      ∧ AnnotationLayout.directoryEntries c.members.methods
        (fun i => listOffsets[(c.position, i)]?) = [] := by
  rw [AnnotationLayout.directory?]
  split
  · rename_i none
    simpa [and_assoc] using none
  · rename_i some
    simpa [and_assoc] using some

/-- The index of a field fits an entry. -/
theorem field_index_lt (h : Legible f order b) (hc : c ∈ placedOf f) :
    ∀ i ∈ c.members.fields.map Prod.fst, i < 2 ^ 32 := by
  intro i mem
  obtain ⟨⟨i, x⟩, inside, rfl⟩ := List.mem_map.mp mem
  obtain ⟨stands, members⟩ := mem_placedOf.mp hc
  rw [members, mem_fields] at inside
  rw [inside.2]
  exact (h.indexed.field _ (field_mentioned (List.mem_of_getElem? stands) inside.1)).1

theorem method_index_lt (h : Legible f order b) (hc : c ∈ placedOf f) :
    ∀ i ∈ c.members.methods.map Prod.fst, i < 2 ^ 32 := by
  intro i mem
  obtain ⟨⟨i, x⟩, inside, rfl⟩ := List.mem_map.mp mem
  obtain ⟨stands, members⟩ := mem_placedOf.mp hc
  rw [members, mem_methods] at inside
  rw [inside.2]
  exact (h.indexed.method _ (method_mentioned (List.mem_of_getElem? stands) inside.1)).1

/-- A class without a directory is given nothing. -/
theorem describes_empty (h : Legible f order b) (hc : c ∈ placedOf f)
    (missing : AnnotationLayout.directory? (setOffsetsOf f) (listOffsetsOf f) c = none) :
    Describes f c .empty := by
  obtain ⟨own, fields, methods, parameters⟩ := directory?_eq_none.mp missing
  refine ⟨?_, fun i mem => ?_, fun i m mem => ?_, fun i m mem => ?_⟩
  · rw [← given_type hc, h.given_eq_nil own, normalSet_nil]
    rfl
  · rw [h.given_eq_nil (directoryEntries_eq_nil fields mem), normalSet_nil]
    exact Std.HashMap.getD_empty
  · rw [← given_method h.distinct hc mem,
      h.given_eq_nil (directoryEntries_eq_nil methods (List.mem_map_of_mem mem)), normalSet_nil]
    exact Std.HashMap.getD_empty
  · have list := h.parameters_at hc mem
    rw [directoryEntries_eq_nil parameters (List.mem_map_of_mem mem)] at list
    rw [show m.parameterAnnotations = [] from list]
    exact Std.HashMap.getD_empty

/-- The sets of the parameters of the method of an index. -/
def parameterSetsOf (c : Placed) (i : Nat) : List (List Annotation) :=
  (lastFor c.members.methods i).elim [] fun m => m.parameterAnnotations.map normalSet

/-- What is read for the parameters of a method are the normal forms of their sets. -/
theorem parameterSetsOf_eq (distinct : f.MethodsDistinct) (hc : c ∈ placedOf f) {i : Nat}
    {m : Method} (hm : (i, m) ∈ c.members.methods) :
    parameterSetsOf c i = m.parameterAnnotations.map normalSet := by
  rw [parameterSetsOf, lastFor_of_unique hm fun x hx => same_method distinct hc hc hx hm]
  rfl

/-- A directory is read off its form. -/
theorem reads_directory (h : Legible f order b) (hc : c ∈ placedOf f) {item : List UInt8}
    (made : AnnotationLayout.directory? (setOffsetsOf f) (listOffsetsOf f) c = some item)
    (short : item.length < 2 ^ 32) :
    ∃ d, Describes f c d ∧ Reads (do
      let type ← Decoder.number 4
      let fields ← Decoder.number 4
      let methods ← Decoder.number 4
      let parameters ← Decoder.number 4
      let type ← (openedOf f b).annotationsAt type
      let fields ← Opened.directoryPart fields (openedOf f b).annotationsAt
      let methods ← Opened.directoryPart methods (openedOf f b).annotationsAt
      let parameters ← Opened.directoryPart parameters (openedOf f b).parameterAnnotationsAt
      return Directory.mk type fields methods parameters) item d := by
  obtain ⟨fields, reads_fields, found_fields⟩ := reads_directoryPart
    (fun i => (setOffsetsOf f)[SetOwner.field c.position i]?)
    (fun i => normalSet (given f (.field c.position i))) (openedOf f b).annotationsAt
    (h.field_index_lt hc)
    fun i _ offset found => h.set_at found
  obtain ⟨methods, reads_methods, found_methods⟩ := reads_directoryPart
    (fun i => (setOffsetsOf f)[SetOwner.method c.position i]?)
    (fun i => normalSet (given f (.method c.position i))) (openedOf f b).annotationsAt
    (h.method_index_lt hc)
    fun i _ offset found => h.set_at found
  obtain ⟨parameters, reads_parameters, found_parameters⟩ := reads_directoryPart
    (fun i => (listOffsetsOf f)[(c.position, i)]?) (parameterSetsOf c)
    (openedOf f b).parameterAnnotationsAt (h.method_index_lt hc) fun i mem offset found => by
      obtain ⟨⟨i, m⟩, hm, rfl⟩ := List.mem_map.mp mem
      have list := h.parameters_at hc hm
      rw [found] at list
      rw [parameterSetsOf_eq h.distinct hc hm]
      exact list
  refine ⟨⟨normalSet c.type.annotations, fields, methods, parameters⟩,
    ⟨rfl, fun i mem => ?_, fun i m mem => ?_, fun i m mem => ?_⟩, ?_⟩
  · exact getD_directoryPart (found_fields i mem) fun offset => by
      rw [h.given_eq_nil offset, normalSet_nil]
  · rw [← given_method h.distinct hc mem]
    exact getD_directoryPart (found_methods i (List.mem_map_of_mem mem)) fun offset => by
      rw [h.given_eq_nil offset, normalSet_nil]
  · rw [← parameterSetsOf_eq h.distinct hc mem]
    refine getD_directoryPart (found_parameters i (List.mem_map_of_mem mem)) fun offset => ?_
    have list := h.parameters_at hc mem
    rw [offset] at list
    rw [parameterSetsOf_eq h.distinct hc mem, show m.parameterAnnotations = [] from list]
    rfl
  · rw [AnnotationLayout.directory?] at made
    split at made
    · cases made
    · obtain rfl := Option.some.inj made
      simp only [List.length_append, List.flatMap_append, length_le,
        length_entries] at short
      have own := h.set_getD (SetOwner.type c.position)
      rw [Std.HashMap.getD_eq_getD_getElem?, given_type hc] at own
      simp only [List.flatMap_append, List.append_assoc]
      refine (Reads.number own.1).bind ((Reads.number (by omega)).bind ((Reads.number (by omega)).bind
        ((Reads.number (by omega)).bind (Reads.lift_bind own.2 (reads_fields.bind
        (reads_methods.bind ?_))))))
      exact reads_parameters.map _

/-- The directory of a class gives to each owner what is given for it. -/
theorem directory_at (h : Legible f order b) (hc : c ∈ placedOf f) :
    (layoutOf f).annotations.directoryOffsets.getD c.position 0 < 2 ^ 32
      ∧ ∃ d, Describes f c d ∧ (openedOf f b).directoryAt
        ((layoutOf f).annotations.directoryOffsets.getD c.position 0) = .ok d := by
  have run : (layoutOf f).annotations.directories ∈ (layoutOf f).runs := by
    simp [Layout.runs, AnnotationLayout.runs]
  have found : FoundAt b (AnnotationLayout.directory? (setOffsetsOf f) (listOffsetsOf f) c)
      ((layoutOf f).annotations.directoryOffsets.getD c.position 0) := h.optional_at run hc
  cases made : AnnotationLayout.directory? (setOffsetsOf f) (listOffsetsOf f) c with
  | none =>
    rw [made] at found
    rw [show (layoutOf f).annotations.directoryOffsets.getD c.position 0 = 0 from found]
    exact ⟨by decide, .empty, h.describes_empty hc made, rfl⟩
  | some item =>
    rw [made] at found
    obtain ⟨d, describes, reads⟩ := h.reads_directory hc made (h.length_lt found.2)
    refine ⟨h.offset_lt found.2, d, describes, ?_⟩
    rw [Opened.directoryAt, if_neg (Nat.ne_of_gt found.1)]
    exact found.2.decodeAt reads

end Legible

end StubJar.Container
