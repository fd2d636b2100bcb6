import StubJar.Proofs.Container.MemberLists

/-!
# Classes read back

The row of a class and everything that it points at are read back as the class
in its normal form (`Legible.reads_classRow`), and the rows of all classes as the
file (`Legible.decode_eq`). Only fields that a class lists more than once come back
otherwise: the first of them takes the annotations of all (`readFields`).
-/

namespace StubJar.Container

open StubJar.Bytes StubJar.Dalvik StubJar.Order

/-- The fields of a class as they are read back, where annotations are noted for
them. -/
def readFields (noted : FieldRef → List Annotation) (fields : List Field) : List Field :=
  let statics := inFieldOrder (fields.filter Field.isStatic)
  let instances := inFieldOrder (fields.filter (!·.isStatic))
  handOut noted (initials statics) statics
    ++ handOut (without noted (statics.map Field.ref)) [] instances

section Fields

variable {noted : FieldRef → List Annotation} {fields : List Field}

/-- Of fields that are listed once, those that are kept are too, in their order. -/
theorem nodup_inFieldOrder (distinct : (fields.map Field.ref).Nodup) (keep : Field → Bool) :
    ((inFieldOrder (fields.filter keep)).map Field.ref).Nodup :=
  ((sortOnKeys_perm _ _).map Field.ref).nodup_iff.mpr (distinct.sublist (List.filter_sublist.map _))

/-- The static fields take nothing that is noted for an instance field. -/
theorem without_statics (distinct : (fields.map Field.ref).Nodup) {x : Field}
    (hx : x ∈ inFieldOrder (fields.filter (!·.isStatic))) :
    without noted ((inFieldOrder (fields.filter Field.isStatic)).map Field.ref) x.ref
      = noted x.ref := by
  refine if_neg fun taken => ?_
  obtain ⟨y, hy, same⟩ := List.mem_map.mp taken
  obtain ⟨hx, instance_x⟩ := List.mem_filter.mp (mem_inFieldOrder.mp hx)
  obtain ⟨hy, static_y⟩ := List.mem_filter.mp (mem_inFieldOrder.mp hy)
  rw [List.inj_on_of_nodup_map distinct hy hx same] at static_y
  simp [static_y] at instance_x

/-- Fields that are listed once are read back in their normal form. -/
theorem readFields_eq (distinct : (fields.map Field.ref).Nodup)
    (own : ∀ x ∈ fields, noted x.ref = normalSet x.annotations) :
    readFields noted fields = normalFields fields := by
  rw [readFields, normalFields, handOut_initials _ (nodup_inFieldOrder distinct _),
    handOut_congr _ fun x hx => without_statics distinct hx,
    handOut_nil _ (nodup_inFieldOrder distinct _),
    ← inFieldOrder_map (g := Field.normal) fun _ => rfl,
    ← inFieldOrder_map (g := Field.normal) fun _ => rfl, List.map_map]
  refine congrArg₂ (· ++ ·) (congrArg fillInitials ?_) ?_
  · refine List.map_congr_left fun x hx => ?_
    rw [own x (mem_of_mem_inFieldOrder hx)]
    rfl
  · refine List.map_congr_left fun x hx => ?_
    rw [own x (mem_of_mem_inFieldOrder hx)]
    rfl

end Fields

/-! ## Members -/

/-- Values are handed out to every field. -/
theorem length_handOut (noted : FieldRef → List Annotation) (values : List Value)
    (fields : List Field) : (handOut noted values fields).length = fields.length := by
  induction fields generalizing noted values with
  | nil => rfl
  | cons x fields ih => rw [handOut, List.length_cons, List.length_cons, ih]

/-- There is a byte at least for each member. -/
theorem length_le_encodeMembers {α : Type} (form : Nat → α → List UInt8) (members : List (Nat × α)) :
    members.length ≤ (encodeMembers form members).length := by
  have each (previous : Nat) : members.length ≤ (distances form previous members).flatten.length := by
    induction members generalizing previous with
    | nil => exact Nat.zero_le _
    | cons x members ih =>
      have head := List.length_pos_iff.mpr (uleb_ne_nil (x.1 - previous))
      have tail := ih x.1
      rw [distances, List.flatten_cons, List.length_append, List.length_append, List.length_cons]
      omega
  rw [encodeMembers_eq]
  exact each 0

/-- Items in the order of their indices, from index zero on. -/
theorem ascending_byIndex {α : Type} (items : List (Nat × α)) :
    (0 :: (Members.byIndex items).map Prod.fst).Pairwise (· ≤ ·) := by
  refine List.pairwise_cons.mpr ⟨fun _ _ => Nat.zero_le _, List.pairwise_map.mpr ?_⟩
  refine (sortOn_ascending (fun x : Nat × α => [x.1]) items).imp fun {x y} le => ?_
  rwa [keyLE_singleton, decide_eq_true_eq] at le

/-- A default mentions nothing. -/
theorem default_mentions (d : Descriptor) : (Value.default d).mentions = [] := by
  rw [Value.default]
  split <;> rfl

/-- What is noted for the fields of a class. -/
def notedFor (f : File) (n : Nat) (r : FieldRef) : List Annotation :=
  normalSet (given f (.field n ((poolOf f).field r)))

section Described

variable {f : File} {c : Placed} {d : Directory}

/-- What a directory says of a field is what is noted for it. -/
theorem Describes.noted (describes : Describes f c d) (hc : c ∈ placedOf f) :
    ∀ x ∈ c.type.fields,
      d.fields.getD ((poolOf f).field x.ref) [] = notedFor f c.position x.ref := fun x hx =>
  describes.fields _ (List.mem_map_of_mem (f := Prod.fst)
    ((mem_placedOf.mp hc).2 ▸ mem_fields.mpr ⟨hx, rfl⟩ :
      ((poolOf f).field x.ref, x) ∈ c.members.fields))

/-- Methods of the class find in the directory what is attached to them. -/
theorem Describes.awaits (describes : Describes f c d) (hc : c ∈ placedOf f) {methods : List Method}
    (listed : ∀ m ∈ methods, m ∈ c.type.methods) :
    Awaits (poolOf f) ⟨0, d.methods, d.parameters⟩ methods := by
  intro m hm
  have member : ((poolOf f).method m.ref, m) ∈ c.members.methods :=
    (mem_placedOf.mp hc).2 ▸ mem_methods.mpr ⟨listed m hm, rfl⟩
  exact ⟨describes.methods _ _ member, describes.parameters _ _ member⟩

end Described

namespace Legible

variable {f : File} {order : List Nat} {b : List UInt8} {c : Placed}

/-- The fields of a class are read off their forms. The static ones come first, and
the others take what is left. -/
theorem reads_fieldGroups (h : Legible f order b) (hc : c ∈ placedOf f) {d : Directory}
    (describes : Describes f c d) :
    ∃ statics instances s s',
      Reads (Decoder.unfold (openedOf f b).field c.members.statics.length
          ⟨0, d.fields, initials (c.members.statics.map Prod.snd)⟩)
        (encodeMembers encodeField c.members.statics) (statics, s)
      ∧ Reads (Decoder.unfold (openedOf f b).field c.members.instances.length ⟨0, s.annotations, []⟩)
        (encodeMembers encodeField c.members.instances) (instances, s')
      ∧ statics ++ instances = readFields (notedFor f c.position) c.type.fields := by
  obtain ⟨stands, members⟩ := mem_placedOf.mp hc
  have inside := List.mem_of_getElem? stands
  have ascending_statics : (0 :: c.members.statics.map Prod.fst).Pairwise (· ≤ ·) :=
    members ▸ ascending_byIndex _
  have ascending_instances : (0 :: c.members.instances.map Prod.fst).Pairwise (· ≤ ·) :=
    members ▸ ascending_byIndex _
  rw [(congrArg Members.statics members).trans (statics_eq inside), List.map_map]
    at ascending_statics ⊢
  rw [(congrArg Members.instances members).trans (instances_eq inside)] at ascending_instances ⊢
  rw [List.map_map] at ascending_instances
  obtain ⟨s, steps, left⟩ := h.steps_fields hc
    (s := ⟨0, d.fields, initials (inFieldOrder (c.type.fields.filter Field.isStatic))⟩)
    (fun _ hx => mem_of_mem_inFieldOrder hx) ascending_statics (describes.noted hc)
  obtain ⟨s', steps', _⟩ := h.steps_fields hc (s := ⟨0, s.annotations, []⟩)
    (fun _ hx => mem_of_mem_inFieldOrder hx) ascending_instances left
  have read := Reads.unfold steps
  have read' := Reads.unfold steps'
  rw [length_handOut] at read read'
  rw [encodeMembers_eq, encodeMembers_eq, List.length_map, List.length_map]
  have values (fields : List Field) :
      fields.map (Prod.snd ∘ fun x => ((poolOf f).field x.ref, x)) = fields := List.map_id fields
  rw [values]
  exact ⟨_, _, s, s', read, read', rfl⟩

/-- The methods of a class are read off their forms, the direct ones first. -/
theorem reads_methodGroups (h : Legible f order b) (hc : c ∈ placedOf f) {d : Directory}
    (describes : Describes f c d) :
    ∃ directs virtuals s s',
      Reads (Decoder.unfold (openedOf f b).method c.members.directs.length
          ⟨0, d.methods, d.parameters⟩)
        (encodeMembers (encodeMethod (codeOffsetsOf f)) c.members.directs) (directs, s)
      ∧ Reads (Decoder.unfold (openedOf f b).method c.members.virtuals.length
          ⟨0, s.annotations, s.parameters⟩)
        (encodeMembers (encodeMethod (codeOffsetsOf f)) c.members.virtuals) (virtuals, s')
      ∧ directs ++ virtuals = normalMethods c.type.methods := by
  obtain ⟨stands, members⟩ := mem_placedOf.mp hc
  have inside := List.mem_of_getElem? stands
  have directs := (congrArg Members.directs members).trans (directs_eq inside)
  have virtuals := (congrArg Members.virtuals members).trans (virtuals_eq inside)
  have ascending_directs : (0 :: c.members.directs.map Prod.fst).Pairwise (· ≤ ·) :=
    members ▸ ascending_byIndex _
  have ascending_virtuals : (0 :: c.members.virtuals.map Prod.fst).Pairwise (· ≤ ·) :=
    members ▸ ascending_byIndex _
  have nodup : (c.members.methods.map Prod.fst).Nodup := members ▸ indices_nodup h.distinct inside
  rw [Members.methods, directs, virtuals, ← List.map_append, List.map_map] at nodup
  rw [directs] at ascending_directs ⊢
  rw [virtuals] at ascending_virtuals ⊢
  rw [List.map_map] at ascending_directs ascending_virtuals
  obtain ⟨s, steps, left⟩ := h.steps_methods hc (s := ⟨0, d.methods, d.parameters⟩)
    (fun _ hm => mem_of_mem_inMethodOrder hm) nodup ascending_directs
    (describes.awaits hc fun m hm =>
      (List.mem_append.mp hm).elim mem_of_mem_inMethodOrder mem_of_mem_inMethodOrder)
  rw [List.map_append, List.nodup_append] at nodup
  rw [← List.append_nil (inMethodOrder (c.type.methods.filter (!·.flags.isDirect)))] at left
  obtain ⟨s', steps', _⟩ := h.steps_methods hc (s := ⟨0, s.annotations, s.parameters⟩)
    (fun _ hm => mem_of_mem_inMethodOrder hm) (by rw [List.append_nil]; exact nodup.2.1)
    ascending_virtuals left
  have read := Reads.unfold steps
  have read' := Reads.unfold steps'
  rw [List.length_map] at read read'
  rw [encodeMembers_eq, encodeMembers_eq, List.length_map, List.length_map, normalMethods,
    ← inMethodOrder_map (g := Method.normal) fun _ => rfl,
    ← inMethodOrder_map (g := Method.normal) fun _ => rfl]
  exact ⟨_, _, s, s', read, read', rfl⟩

/-- The members of a class are read off their form. -/
theorem reads_members (h : Legible f order b) (hc : c ∈ placedOf f) {d : Directory}
    (describes : Describes f c d) {item : List UInt8}
    (made : encodeClassData? (codeOffsetsOf f) c.members = some item)
    (short : item.length < 2 ^ 32) :
    Reads (do
      let statics ← Decoder.uleb
      let instances ← Decoder.uleb
      let directs ← Decoder.uleb
      let virtuals ← Decoder.uleb
      let (statics, s) ← Decoder.unfold (openedOf f b).field statics
        ⟨0, d.fields, initials (c.members.statics.map Prod.snd)⟩
      let (instances, _) ← Decoder.unfold (openedOf f b).field instances ⟨0, s.annotations, []⟩
      let (directs, s) ← Decoder.unfold (openedOf f b).method directs ⟨0, d.methods, d.parameters⟩
      let (virtuals, _) ← Decoder.unfold (openedOf f b).method virtuals
        ⟨0, s.annotations, s.parameters⟩
      return (statics ++ instances, directs ++ virtuals)) item
      (readFields (notedFor f c.position) c.type.fields, normalMethods c.type.methods) := by
  rw [encodeClassData?] at made
  split at made
  · cases made
  · obtain rfl := Option.some.inj made
    obtain ⟨statics, instances, _, _, read_statics, read_instances, fields⟩ :=
      h.reads_fieldGroups hc describes
    obtain ⟨directs, virtuals, _, _, read_directs, read_virtuals, methods⟩ :=
      h.reads_methodGroups hc describes
    have count_statics := length_le_encodeMembers encodeField c.members.statics
    have count_instances := length_le_encodeMembers encodeField c.members.instances
    have count_directs := length_le_encodeMembers (encodeMethod (codeOffsetsOf f)) c.members.directs
    have count_virtuals := length_le_encodeMembers (encodeMethod (codeOffsetsOf f)) c.members.virtuals
    simp only [List.length_append] at short
    simp only [List.append_assoc]
    rw [← fields, ← methods]
    refine (Reads.uleb (by omega)).bind ((Reads.uleb (by omega)).bind ((Reads.uleb (by omega)).bind
      ((Reads.uleb (by omega)).bind (read_statics.bind (read_instances.bind (read_directs.bind ?_))))))
    exact read_virtuals.map fun x => (statics ++ instances, directs ++ x.1)

/-- The members of a class are read where they stand; a class without any has
none. -/
theorem members_at (h : Legible f order b) (hc : c ∈ placedOf f) {d : Directory}
    (describes : Describes f c d) :
    (layoutOf f).classDataOffsets.getD c.position 0 < 2 ^ 32
      ∧ (openedOf f b).membersAt ((layoutOf f).classDataOffsets.getD c.position 0) d
          (initials (c.members.statics.map Prod.snd))
        = .ok (readFields (notedFor f c.position) c.type.fields, normalMethods c.type.methods) := by
  have run : (layoutOf f).classData ∈ (layoutOf f).runs := by simp [Layout.runs]
  have found : FoundAt b (encodeClassData? (codeOffsetsOf f) c.members)
      ((layoutOf f).classDataOffsets.getD c.position 0) := h.optional_at run hc
  cases made : encodeClassData? (codeOffsetsOf f) c.members with
  | some item =>
    rw [made] at found
    refine ⟨h.offset_lt found.2, ?_⟩
    rw [Opened.membersAt, if_neg (Nat.ne_of_gt found.1)]
    exact found.2.decodeAt (h.reads_members hc describes made (h.length_lt found.2))
  | none =>
    rw [made] at found
    have zero : (layoutOf f).classDataOffsets.getD c.position 0 = 0 := found
    have members := (mem_placedOf.mp hc).2
    have empty : c.members.isEmpty = true := by
      rw [encodeClassData?] at made
      split at made
      · assumption
      · cases made
    rw [Members.isEmpty, Bool.and_eq_true, List.isEmpty_iff, List.isEmpty_iff] at empty
    have fields : c.type.fields = [] := List.eq_nil_iff_forall_not_mem.mpr fun x hx => by
      have listed : ((poolOf f).field x.ref, x) ∈ c.members.fields :=
        members ▸ mem_fields.mpr ⟨hx, rfl⟩
      rw [empty.1] at listed
      cases listed
    have methods : c.type.methods = [] := List.eq_nil_iff_forall_not_mem.mpr fun m hm => by
      have listed : ((poolOf f).method m.ref, m) ∈ c.members.methods :=
        members ▸ mem_methods.mpr ⟨hm, rfl⟩
      rw [empty.2] at listed
      cases listed
    have no_fields (noted : FieldRef → List Annotation) : readFields noted [] = [] := by
      simp [readFields, inFieldOrder, sortOnKeys, handOut]
    rw [zero, fields, methods, no_fields, normalMethods_nil]
    exact ⟨by decide, rfl⟩

/-! ## Rows -/

/-- The initial values of a class are read where they stand. -/
theorem values_at (h : Legible f order b) (hc : c ∈ placedOf f) :
    (layoutOf f).arrayOffsets.getD c.position 0 < 2 ^ 32
      ∧ (Image.ofBytes b).listAt ((layoutOf f).arrayOffsets.getD c.position 0)
          (countedList (decodeValue (openedOf f b).tables (openedOf f b).depth))
        = .ok (initials (c.members.statics.map Prod.snd)) := by
  have run : (layoutOf f).arrays ∈ (layoutOf f).runs := by simp [Layout.runs]
  have found : FoundAt b (if c.members.initialValues.isEmpty then none
      else some (encodeArray (poolOf f) c.members.initialValues))
      ((layoutOf f).arrayOffsets.getD c.position 0) := h.optional_at run hc
  have mentioned : ∀ v ∈ c.members.initialValues, ∀ m ∈ v.mentions, m ∈ f.mentions := by
    intro v hv
    obtain ⟨stands, members⟩ := mem_placedOf.mp hc
    obtain ⟨⟨i, x⟩, hx, rfl⟩ := List.mem_map.mp hv
    have hx := (List.dropWhile_sublist _).subset (List.mem_reverse.mp hx)
    have hx : (i, x) ∈ c.members.fields := List.mem_append_left _ (List.mem_reverse.mp hx)
    rw [members, mem_fields] at hx
    change ∀ m ∈ (x.initial.getD (Value.default x.ref.type)).mentions, m ∈ f.mentions
    cases given : x.initial with
    | some v => exact mentions_of_initial (List.mem_of_getElem? stands) hx.1 given
    | none =>
      intro m hm
      rw [Option.getD_none, default_mentions] at hm
      cases hm
  rw [← initialValues_normal]
  cases empty : c.members.initialValues.isEmpty with
  | true =>
    rw [empty, if_pos rfl] at found
    rw [show (layoutOf f).arrayOffsets.getD c.position 0 = 0 from found, List.isEmpty_iff.mp empty]
    exact ⟨by decide, rfl⟩
  | false =>
    rw [empty, if_neg (by decide)] at found
    have bound := found.2.bound
    have short := h.length_lt found.2
    have item : encodeArray (poolOf f) c.members.initialValues
        = counted (c.members.initialValues.map (encodeValue (poolOf f))) := by
      rw [encodeArray, encodeValues_eq]
    have count : c.members.initialValues.length
        ≤ (c.members.initialValues.flatMap (encodeValue (poolOf f))).length :=
      count_le_flatMap fun v _ => encodeValue_ne_nil _ v
    have joined := length_counted (encodeValue (poolOf f)) c.members.initialValues
    rw [item] at bound short
    refine ⟨h.offset_lt found.2, found.2.listAt found.1 ?_⟩
    rw [item]
    refine reads_countedList (by omega) fun v hv => ?_
    have piece := length_le_flatMap (encodeValue (poolOf f)) hv
    refine reads_mentioned h.indexed (mentioned v hv) ?_ ?_
    · change (encodeValue (poolOf f) v).length ≤ b.length + 1
      omega
    · change (encodeValue (poolOf f) v).length < 2 ^ 32
      omega

/-- What may be missing is found unless its index says that it is. -/
theorem optionally_eq {α : Type} (item? : Option α) (index : α → Nat)
    (find : Nat → Except DecodeFault α)
    (found : ∀ a, item? = some a → index a < noIndex ∧ find (index a) = .ok a) :
    item?.elim noIndex index < 2 ^ 32
      ∧ Opened.optionally (item?.elim noIndex index) find = .ok item? := by
  cases item? with
  | none => exact ⟨(by decide : noIndex < 2 ^ 32), if_pos rfl⟩
  | some a =>
    obtain ⟨small, found⟩ := found a rfl
    refine ⟨Nat.lt_trans small (by decide), ?_⟩
    rw [Option.elim_some, Opened.optionally, if_neg (Nat.ne_of_lt small), found]
    rfl

/-- The interfaces of a class are among the lists of types. -/
theorem interfaces_listed {d : ClassDecl} (inside : d ∈ f.classes) (some : d.interfaces ≠ []) :
    d.interfaces.map (poolOf f).type ∈ typeLists (poolOf f) f.classes := by
  rw [typeLists, mem_distinct, List.mem_filter]
  refine ⟨List.mem_map.mpr ⟨d.interfaces, List.mem_append_right _
    (List.mem_map.mpr ⟨d, inside, rfl⟩), rfl⟩, ?_⟩
  simpa using some

end Legible

/-- A class as it is read back from its position. -/
def readClass (f : File) (n : Nat) (c : ClassDecl) : ClassDecl :=
  { c.normal with fields := readFields (notedFor f n) c.fields }

/-- The classes of a file as they are read back from the positions of a list. -/
def readClasses (f : File) (positions : List Nat) : List ClassDecl :=
  positions.filterMap fun i => f.classes[i]?.map (readClass f i)

/-- A class is read for every position. -/
theorem length_readClasses {f : File} {positions : List Nat} (inside : ∀ i ∈ positions, i < f.classes.length) :
    (readClasses f positions).length = positions.length := by
  induction positions with
  | nil => rfl
  | cons i positions ih =>
    have stands := List.getElem?_eq_getElem (inside i List.mem_cons_self)
    rw [readClasses, List.filterMap_cons, stands]
    exact congrArg (· + 1) (ih fun j hj => inside j (List.mem_cons_of_mem _ hj))

namespace Legible

variable {f : File} {order : List Nat} {b : List UInt8} {c : Placed}

/-- A class is read off its row. -/
theorem reads_classRow (h : Legible f order b) (hc : c ∈ placedOf f) :
    Reads (openedOf f b).classRow ((layoutOf f).classRow (poolOf f) c.position c.type)
      (readClass f c.position c.type) := by
  have inside := List.mem_of_getElem? (mem_placedOf.mp hc).1
  have type := h.indexed.type _ (type_mentioned inside List.mem_cons_self)
  have superclass := optionally_eq c.type.superclass (poolOf f).type (openedOf f b).tables.type
    fun d same => by
      have found := h.indexed.type d (type_mentioned inside (List.mem_cons_of_mem _
        (List.mem_append_left _ (Option.mem_toList.mpr same))))
      exact ⟨Nat.lt_trans found.1 (by decide), found.2⟩
  have interfaces := h.typesAt_eq (t := (openedOf f b).tables) rfl
    (fun d hd => type_mentioned inside (List.mem_cons_of_mem _ (List.mem_append_right _ hd)))
    (interfaces_listed inside)
  have sourceFile := optionally_eq c.type.sourceFile (poolOf f).string (openedOf f b).tables.string
    fun s same =>
      h.indexed.string s (sourceFile_mentioned inside same)
  obtain ⟨directory_small, d, describes, directory⟩ := h.directory_at hc
  obtain ⟨members_small, members⟩ := h.members_at hc describes
  obtain ⟨values_small, values⟩ := h.values_at hc
  simp only [Layout.classRow, List.append_assoc]
  refine (Reads.number (Nat.lt_trans type.1 (by decide))).bind
    ((Reads.number c.type.flags.bits.toNat_lt).bind ((Reads.number superclass.1).bind
    ((Reads.number interfaces.1).bind ((Reads.number sourceFile.1).bind
    ((Reads.number directory_small).bind ((Reads.number members_small).bind ?_))))))
  rw [← List.append_nil (le 4 _)]
  refine (Reads.number values_small).bind (Reads.lift_bind type.2 (Reads.lift_bind
    (flagsOf_eq _ (h.flags _ inside).own) (Reads.lift_bind superclass.2 (Reads.lift_bind interfaces.2
    (Reads.lift_bind sourceFile.2 (Reads.lift_bind directory (Reads.lift_bind values
    (Reads.lift_bind members ?_))))))))
  rw [describes.type]
  exact Reads.pure _

/-- Each row is read as the class whose row it is. -/
theorem reads_classRows (h : Legible f order b) {positions : List Nat}
    (inside : ∀ i ∈ positions, i < f.classes.length) :
    List.Forall₂ (Reads (openedOf f b).classRow)
      (positions.map fun i => f.classes[i]?.elim [] ((layoutOf f).classRow (poolOf f) i))
      (readClasses f positions) := by
  induction positions with
  | nil => exact .nil
  | cons i positions ih =>
    obtain ⟨c, stands⟩ : ∃ c, f.classes[i]? = some c :=
      ⟨_, List.getElem?_eq_getElem (inside i List.mem_cons_self)⟩
    have placed : (⟨i, c, Members.ofClass (poolOf f) c⟩ : Placed) ∈ placedOf f :=
      mem_placedOf.mpr ⟨stands, rfl⟩
    have row := h.reads_classRow placed
    dsimp only at row
    have rest := ih fun j hj => inside j (List.mem_cons_of_mem _ hj)
    rw [List.map_cons, readClasses, List.filterMap_cons_some (by rw [stands, Option.map_some]),
      stands, Option.elim_some]
    exact .cons row rest

/-- A file is read back with its classes in their order. -/
theorem decode_eq (h : Legible f order b) :
    decode b = .ok ⟨writtenVersion (poolOf f) f, readClasses f order⟩ := by
  have perm := h.perm
  have inside : ∀ i ∈ order, i < f.classes.length := fun i hi => List.mem_range.mp (perm.subset hi)
  have count : (readClasses f order).length = f.classes.length := by
    rw [length_readClasses inside, perm.length_eq, List.length_range]
  have table := h.table (k := 5) rfl rfl
  have rows : rowsAt (Image.ofBytes b) b Header.classes (openedOf f b).classRow
      = .ok (readClasses f order).toArray := by
    refine h.rowsAt_eq (k := 16) (by rw [count]; rfl) (by rw [count]; rfl) table.1
      (by rw [table.2, count]; rfl) (Nat.succ_pos _) ?_
    have read := Reads.times (h.reads_classRows inside)
    rwa [← List.flatMap_def] at read
  rw [decode]
  refine bind_eq_ok.mpr ⟨_, h.openContainer_eq, ?_⟩
  exact bind_eq_ok.mpr ⟨_, rows, rfl⟩

end Legible

end StubJar.Container
