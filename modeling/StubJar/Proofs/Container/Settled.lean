import StubJar.Proofs.Container.Rewriting

/-!
# Files that are settled

Where the classes of a file stand in order and no container would lose anything of
their fields (`Settled`), what is read back lists the same items in the same order: it
mentions the same things (`Settled.mentions_reread`), its classes have the same forms
(`Settled.sameForms`), and it is written to the same bytes (`Settled.encode_reread`).
For every other file one pass of writing and reading is enough to settle it
(`encode_stable`).
-/

namespace StubJar.Container

open StubJar.Dalvik StubJar.Order

/-- The classes of a file stand behind their parents, list no field twice and give
initial values to static fields only. -/
structure Settled (f : File) : Prop where
  ordered : Hierarchy.ParentsFirst f.classes
  distinct : ∀ c ∈ f.classes, c.FieldsDistinct
  initials : ∀ c ∈ f.classes, ∀ x ∈ c.fields, x.isStatic = false → x.initial = none

/-! ## What normal forms mention -/

section Mentions

variable {m : Mention} {c : ClassDecl} {fields : List Field}

/-- Filling in initial values leaves those that are given. -/
theorem exists_mem_fillInitials {x : Field} (mem : x ∈ fields) :
    ∃ y ∈ fillInitials fields, y.ref = x.ref ∧ y.annotations = x.annotations
      ∧ ∀ v, x.initial = some v → y.initial = some v := by
  induction fields with
  | nil => cases mem
  | cons z fields ih =>
    rcases List.mem_cons.mp mem with rfl | later
    · refine ⟨_, List.mem_cons_self, rfl, rfl, fun v given => ?_⟩
      have some : (x :: fields).any (·.initial.isSome) = true := by
        rw [List.any_cons, given, Option.isSome_some, Bool.true_or]
      dsimp only
      rw [if_pos some, given, Option.getD_some]
    · obtain ⟨y, hy, same⟩ := ih later
      exact ⟨y, List.mem_cons_of_mem _ hy, same⟩

/-- A field of the class has a normal form that has all it had, the initial values of
instance fields apart. -/
theorem exists_mem_normalFields {x : Field} (mem : x ∈ fields)
    (plain : x.isStatic = false → x.initial = none) :
    ∃ y ∈ normalFields fields, y.ref = x.ref ∧ y.annotations = normalSet x.annotations
      ∧ ∀ v, x.initial = some v → y.initial = some v.normal := by
  have inside {keep : Field → Bool} (kept : keep x = true) :
      x.normal ∈ inFieldOrder ((fields.filter keep).map Field.normal) :=
    mem_inFieldOrder.mpr (List.mem_map_of_mem (List.mem_filter.mpr ⟨mem, kept⟩))
  cases static : x.isStatic with
  | true =>
    obtain ⟨y, hy, ref, annotations, initial⟩ := exists_mem_fillInitials (inside static)
    refine ⟨y, List.mem_append_left _ hy, ref, annotations, fun v given => initial _ ?_⟩
    rw [Field.normal, given, Option.map_some]
  | false =>
    have other : (!x.isStatic) = true := by rw [static]; rfl
    refine ⟨_, List.mem_append_right _ (List.mem_map_of_mem (inside other)), rfl, rfl,
      fun v given => ?_⟩
    rw [plain static] at given
    cases given

/-- A class whose instance fields have no initial values mentions nothing that its
normal form does not mention. -/
theorem mentions_normal (plain : ∀ x ∈ c.fields, x.isStatic = false → x.initial = none) :
    c.mentions ⊆ c.normal.mentions := by
  intro m hm
  simp only [ClassDecl.mentions, List.mem_append] at hm ⊢
  rcases hm with (((types | file) | annotations) | fields) | methods
  · exact Or.inl (Or.inl (Or.inl (Or.inl types)))
  · exact Or.inl (Or.inl (Or.inl (Or.inr file)))
  · exact Or.inl (Or.inl (Or.inr ((mem_mentions_normalSet c.annotations).mpr annotations)))
  · obtain ⟨x, hx, hm⟩ := List.mem_flatMap.mp fields
    obtain ⟨y, hy, ref, annotations, initial⟩ := exists_mem_normalFields hx (plain x hx)
    refine Or.inl (Or.inr (List.mem_flatMap.mpr ⟨y, hy, ?_⟩))
    rw [Field.mentions, List.mem_cons, List.mem_append] at hm ⊢
    rw [ref, annotations]
    refine hm.imp id (Or.imp (fun value => ?_) (mem_mentions_normalSet x.annotations).mpr)
    cases given : x.initial with
    | none =>
      rw [given] at value
      cases value
    | some v =>
      rw [given] at value
      rw [initial v given]
      exact (Value.mem_mentions_normal v).mpr value
  · exact Or.inr ((mem_mentions_normalMethods c.methods).mpr methods)

end Mentions

/-! ## Forms of members -/

section Forms

variable {f g : File} {c : ClassDecl}

/-- The initial values of a class are mentioned. -/
theorem initialValues_mentioned {p : Pool} :
    ∀ v ∈ (Members.ofClass p c).initialValues, v.mentions ⊆ c.mentions := by
  intro v hv
  obtain ⟨⟨i, x⟩, hx, rfl⟩ := List.mem_map.mp hv
  have hx := (List.dropWhile_sublist _).subset (List.mem_reverse.mp hx)
  have hx : (i, x) ∈ (Members.ofClass p c).fields :=
    List.mem_append_left _ (List.mem_reverse.mp hx)
  change (x.initial.getD (Value.default x.ref.type)).mentions ⊆ c.mentions
  cases given : x.initial with
  | some v =>
    refine fun m hm => c.field_mentions (mem_fields.mp hx).1 (List.mem_cons_of_mem _ ?_)
    rw [given]
    exact List.mem_append_left _ hm
  | none =>
    rw [Option.getD_none, default_mentions]
    exact List.nil_subset _

/-- Values of one normal form are written alike. -/
theorem encodeValues_of_normal {ms : List Mention} {vs ws : List Value}
    (mentioned : ∀ v ∈ vs, ∀ m ∈ v.mentions, m ∈ ms) (mentioned' : ∀ w ∈ ws, ∀ m ∈ w.mentions, m ∈ ms)
    (same : vs.map Value.normal = ws.map Value.normal) :
    encodeValues (Pool.ofMentions ms) vs = encodeValues (Pool.ofMentions ms) ws := by
  have forms {us : List Value} (mentioned : ∀ u ∈ us, ∀ m ∈ u.mentions, m ∈ ms) :
      encodeValues (Pool.ofMentions ms) us
        = (us.map Value.normal).map (encodeValue (Pool.ofMentions ms)) := by
    rw [encodeValues_eq, List.map_map]
    exact List.map_congr_left fun u hu => (encodeValue_normal u (mentioned u hu)).symm
  rw [forms mentioned, forms mentioned', same]

/-- Fields are written as what is handed out to them, if each gets its own
annotations. -/
theorem sameFields_handOut {noted : FieldRef → List Annotation} {values : List Value}
    {fields : List Field} (distinct : (fields.map Field.ref).Nodup)
    (own : ∀ x ∈ fields, noted x.ref = normalSet x.annotations)
    (mentioned : ∀ x ∈ fields, ∀ a ∈ x.annotations, ∀ m ∈ a.mentions, m ∈ f.mentions) :
    List.Forall₂ (SameField (poolOf f)) (fields.map fun x => ((poolOf f).field x.ref, x))
      ((handOut noted values fields).map fun x => ((poolOf f).field x.ref, x)) := by
  induction fields generalizing noted values with
  | nil => exact .nil
  | cons x fields ih =>
    obtain ⟨new, distinct⟩ := List.nodup_cons.mp distinct
    rw [handOut, List.map_cons, List.map_cons]
    refine .cons ⟨rfl, rfl, ?_⟩ (ih distinct (fun y hy => ?_) fun y hy =>
      mentioned y (List.mem_cons_of_mem _ hy))
    · rw [own x List.mem_cons_self]
      exact sameSet_normal (mentioned x List.mem_cons_self)
    · have other : y.ref ∉ [x.ref] := fun same =>
        new (List.mem_singleton.mp same ▸ List.mem_map_of_mem hy)
      rw [without, if_neg other, own y (List.mem_cons_of_mem _ hy)]

/-- A method is written as its normal form is. -/
theorem sameMethod_normal (hc : c ∈ f.classes) {x : Method} (hx : x ∈ c.methods) (i : Nat) :
    SameMethod (poolOf f) (i, x) (i, x.normal) := by
  refine ⟨rfl, rfl, rfl, sameSet_normal fun a ha =>
    mentions_of_method_annotation hc hx (Or.inl ha), ?_⟩
  refine List.forall₂_map_right_iff.mpr (List.forall₂_same.mpr fun set mem => ?_)
  exact sameSet_normal fun a ha =>
    mentions_of_method_annotation hc hx (Or.inr (List.mem_flatten.mpr ⟨set, mem, ha⟩))

/-- So are methods in their order. -/
theorem sameMethods_normal (hc : c ∈ f.classes) (keep : Method → Bool) :
    List.Forall₂ (SameMethod (poolOf f))
      ((inMethodOrder (c.methods.filter keep)).map fun x => ((poolOf f).method x.ref, x))
      ((inMethodOrder ((c.methods.filter keep).map Method.normal)).map
        fun x => ((poolOf f).method x.ref, x)) := by
  rw [← inMethodOrder_map (g := Method.normal) fun _ => rfl, List.map_map]
  refine List.forall₂_map_left_iff.mpr (List.forall₂_map_right_iff.mpr
    (List.forall₂_same.mpr fun x hx => ?_))
  exact sameMethod_normal hc (mem_of_mem_inMethodOrder hx) _

end Forms

/-! ## Forms of classes -/

section Classes

variable {f g : File} {c : ClassDecl} {n : Nat}

/-- A class that lists no field twice is written as its normal form is, where both files
have the same tables. -/
theorem sameForm_normal (stands : f.classes[n]? = some c) (distinct : c.FieldsDistinct)
    (again : c.normal ∈ g.classes) (tables : poolOf g = poolOf f) (mentions : g.mentions ⊆ f.mentions) :
    SameForm (poolOf f) ⟨n, c, Members.ofClass (poolOf f) c⟩
      ⟨n, c.normal, Members.ofClass (poolOf g) c.normal⟩ := by
  have hc := List.mem_of_getElem? stands
  have placed : (⟨n, c, Members.ofClass (poolOf f) c⟩ : Placed) ∈ placedOf f :=
    mem_placedOf.mpr ⟨stands, rfl⟩
  have own : ∀ x ∈ c.fields, notedFor f n x.ref = normalSet x.annotations := fun x hx =>
    congrArg normalSet (given_field placed distinct hx)
  have fields : c.normal.fields = readFields (notedFor f n) c.fields :=
    (readFields_eq distinct own).symm
  -- The two groups of fields, each in order and with the annotations of its fields.
  have statics : (Members.ofClass (poolOf g) c.normal).statics
      = (handOut (notedFor f n) (initials (inFieldOrder (c.fields.filter Field.isStatic)))
        (inFieldOrder (c.fields.filter Field.isStatic))).map fun x => ((poolOf f).field x.ref, x) := by
    rw [statics_eq again, fields, statics_readFields, inFieldOrder_of_refs (handOut_refs _ _ _), tables]
  have instances : (Members.ofClass (poolOf g) c.normal).instances
      = (handOut (without (notedFor f n) ((inFieldOrder (c.fields.filter Field.isStatic)).map Field.ref))
        [] (inFieldOrder (c.fields.filter (!·.isStatic)))).map
          fun x => ((poolOf f).field x.ref, x) := by
    rw [instances_eq again, fields, instances_readFields, inFieldOrder_of_refs (handOut_refs _ _ _),
      tables]
  have annotated {keep : Field → Bool} : ∀ x ∈ inFieldOrder (c.fields.filter keep),
      ∀ a ∈ x.annotations, ∀ m ∈ a.mentions, m ∈ f.mentions := fun x hx a ha =>
    mentions_of_field_annotation hc (mem_of_mem_inFieldOrder hx) ha
  refine ⟨rfl, rfl, sameSet_normal fun a ha => mentions_of_annotation hc ha, ?_, ?_, ?_, ?_, ?_⟩
  · rw [statics_eq hc, statics]
    exact sameFields_handOut (nodup_inFieldOrder distinct _)
      (fun x hx => own x (mem_of_mem_inFieldOrder hx)) annotated
  · rw [instances_eq hc, instances]
    exact sameFields_handOut (nodup_inFieldOrder distinct _)
      (fun x hx => (without_statics distinct hx).trans (own x (mem_of_mem_inFieldOrder hx))) annotated
  · rw [directs_eq hc, directs_eq again, tables]
    change List.Forall₂ _ _ ((inMethodOrder ((normalMethods c.methods).filter _)).map _)
    rw [directs_normalMethods, inMethodOrder_of_refs rfl]
    exact sameMethods_normal hc _
  · rw [virtuals_eq hc, virtuals_eq again, tables]
    change List.Forall₂ _ _ ((inMethodOrder ((normalMethods c.methods).filter _)).map _)
    rw [virtuals_normalMethods, inMethodOrder_of_refs rfl]
    exact sameMethods_normal hc _
  · refine encodeValues_of_normal (fun v hv m hm => mentions_of_class hc (initialValues_mentioned v hv hm))
      (fun v hv m hm => mentions (mentions_of_class again (initialValues_mentioned v hv hm))) ?_
    have bare (xs : List Field) : (xs.map fun x => ((poolOf f).field x.ref, x)).map Prod.snd = xs := by
      rw [List.map_map]
      exact List.map_id xs
    show (Members.ofClass (poolOf f) c).initialValues.map Value.normal
      = (Members.ofClass (poolOf g) c.normal).initialValues.map Value.normal
    rw [initialValues_normal, initialValues_normal, statics_eq hc, statics, bare, bare,
      initials_handOut]

end Classes

/-! ## Bytes -/

namespace Settled

variable {f : File} {b : List UInt8}

/-- The classes are read back in their normal forms, where they stand. -/
theorem classes_reread (h : Settled f) :
    (reread f (List.range f.classes.length)).classes = f.classes.map ClassDecl.normal := by
  show readClasses f _ = _
  rw [readClasses_eq h.distinct, Hierarchy.filterMap_range]

/-- What a settled file mentions, it still mentions when it is read. -/
theorem mentions_reread (h : Settled f) :
    f.mentions ⊆ (reread f (List.range f.classes.length)).mentions := by
  intro m hm
  obtain ⟨c, hc, hm⟩ := List.mem_flatMap.mp hm
  rw [File.mentions, h.classes_reread]
  exact List.mem_flatMap.mpr
    ⟨c.normal, List.mem_map_of_mem hc, mentions_normal (h.initials c hc) hm⟩

/-- What is read back has the same tables. -/
theorem tables_reread (h : Settled f) (agree : ∀ k ∈ f.mentions.flatMap Mention.handles, k.Agrees) :
    poolOf (reread f (List.range f.classes.length)) = poolOf f :=
  (Pool.ofMentions_congr (fun _ => ⟨fun hm => h.mentions_reread hm, fun hm => reread_mentions hm⟩)
    agree).symm

/-- What is read back has the same forms. -/
theorem sameForms (h : Settled f) (agree : ∀ k ∈ f.mentions.flatMap Mention.handles, k.Agrees) :
    List.Forall₂ (SameForm (poolOf f)) (placedOf f)
      (placedOf (reread f (List.range f.classes.length))) := by
  refine List.forall₂_iff_get.mpr ⟨?_, fun i hi hi' => ?_⟩
  · have lengths := congrArg List.length h.classes_reread
    simp only [placedOf, placeClasses, List.length_map, List.length_zipIdx] at lengths ⊢
    exact lengths.symm
  · have inside : i < f.classes.length := by
      simpa [placedOf, placeClasses] using hi
    have stands := List.getElem?_eq_getElem inside
    have stands' : (reread f (List.range f.classes.length)).classes[i]?
        = some (f.classes[i].normal) := by
      rw [h.classes_reread, List.getElem?_map, stands, Option.map_some]
    have one : (placedOf f).get ⟨i, hi⟩ = _ := Option.some.inj
      ((List.getElem?_eq_getElem hi).symm.trans ((getElem?_placedOf i).trans (by rw [stands]; rfl)))
    have two : (placedOf (reread f (List.range f.classes.length))).get ⟨i, hi'⟩ = _ := Option.some.inj
      ((List.getElem?_eq_getElem hi').symm.trans ((getElem?_placedOf i).trans (by rw [stands']; rfl)))
    rw [one, two]
    exact sameForm_normal stands (h.distinct _ (List.getElem_mem inside)) (List.mem_of_getElem? stands')
      (h.tables_reread agree) reread_mentions

/-- What is read back is placed alike. -/
theorem layout_reread (h : Settled f) (agree : ∀ k ∈ f.mentions.flatMap Mention.handles, k.Agrees) :
    layoutOf (reread f (List.range f.classes.length)) = layoutOf f := by
  have interfaces : f.classes.map ClassDecl.interfaces
      = (reread f (List.range f.classes.length)).classes.map ClassDecl.interfaces := by
    rw [h.classes_reread, List.map_map]
    rfl
  have same := Layout.ofClasses_congr (h.sameForms agree) interfaces
  rw [layoutOf, layoutOf, same, h.tables_reread agree]

/-- The rows of classes say nothing of what a normal form changes. -/
theorem tables_bytes_reread (h : Settled f) (p : Pool) (l : Layout) (order : List Nat) :
    encodeTables p l (reread f (List.range f.classes.length)).classes.toArray order
      = encodeTables p l f.classes.toArray order := by
  have rows : ∀ i, (f.classes.map ClassDecl.normal).toArray[i]?.elim [] (l.classRow p i)
      = f.classes.toArray[i]?.elim [] (l.classRow p i) := by
    intro i
    rw [List.getElem?_toArray, List.getElem?_toArray, List.getElem?_map]
    cases f.classes[i]? <;> rfl
  rw [encodeTables, encodeTables, h.classes_reread]
  simp only [rows]

/-- A settled file and what is read back of it are written to the same bytes. -/
theorem encode_reread (h : Settled f) (agree : ∀ k ∈ f.mentions.flatMap Mention.handles, k.Agrees)
    (written : encode f = .ok b) : encode (reread f (List.range f.classes.length)) = .ok b := by
  obtain ⟨order, ordered, writes⟩ := encode_eq_ok.mp written
  obtain rfl := Except.ok.inj ((Hierarchy.order_of_parentsFirst h.ordered).symm.trans ordered)
  obtain ⟨b', writes'⟩ := writes_reread writes
  have length : (reread f (List.range f.classes.length)).classes.length = f.classes.length := by
    rw [h.classes_reread, List.length_map]
  have ordered' : Hierarchy.order (reread f (List.range f.classes.length)).classes
      = .ok (List.range (reread f (List.range f.classes.length)).classes.length) := by
    refine Hierarchy.order_of_parentsFirst fun i j c d hc hd parent => ?_
    rw [h.classes_reread, List.getElem?_map, Option.map_eq_some_iff] at hc hd
    obtain ⟨c, hc, rfl⟩ := hc
    obtain ⟨d, hd, rfl⟩ := hd
    exact h.ordered i j c d hc hd parent
  have same : b' = b := by
    rw [writes'.bytes, writes.bytes, writtenVersion_reread, signedOf, signedOf, sizeOf, sizeOf,
      h.layout_reread agree, h.tables_reread agree, tables_bytes_reread h, length]
    rfl
  exact same ▸ encode_eq_ok.mpr ⟨_, ordered', writes'⟩

end Settled

/-- What is read back is written to bytes from which the same is read, and these are
the bytes it was read from, if the file was settled at the start.

A container counts sizes and offsets in 32 bits, and beyond that what is written says
something else. The bound stands on both containers, since the order of the classes moves
the padding between the items. -/
theorem encode_stable {f g : File} {b : List UInt8} (regular : f.Regular)
    (classes : (f.classes.map ClassDecl.type).Nodup) (written : encode f = .ok b)
    (small : b.length < 2 ^ 32) (read : decode b = .ok g) :
    ∃ b', encode g = .ok b'
      ∧ (b'.length < 2 ^ 32 → decode b' = .ok g ∧ ∀ g', decode b' = .ok g' → encode g' = .ok b')
      ∧ (Hierarchy.ParentsFirst f.classes →
        (∀ c ∈ f.classes, ∀ x ∈ c.fields, x.isStatic = false → x.initial = none) → b' = b) := by
  obtain ⟨order, ordered, writes⟩ := encode_eq_ok.mp written
  have legible := legible_of_regular regular writes small
  obtain rfl : reread f order = g := Except.ok.inj (legible.decode_eq.symm.trans read)
  obtain ⟨b', again⟩ := legible.encode_reread ordered classes
  refine ⟨b', again, fun small' => ?_, fun inOrder initials => ?_⟩
  · have back := legible.decode_again ordered classes again small'
    refine ⟨back, fun g' read' => ?_⟩
    obtain rfl := Except.ok.inj (back.symm.trans read')
    exact again
  · have settled : Settled f := ⟨inOrder, regular.fields, initials⟩
    obtain rfl := Except.ok.inj
      ((Hierarchy.order_of_parentsFirst inOrder).symm.trans ordered)
    exact Except.ok.inj (again.symm.trans (settled.encode_reread legible.agree written))

/-! ## The file that is out of order, and one that is settled -/

/-- The superclass in front of the class, which still has its members out of order. -/
def orderedFile : File := ⟨35, shuffledFile.classes.reverse⟩

/-- Both files have one normal form. -/
theorem normal_orderedFile : orderedFile.normal = sortedFile := by cbv

theorem regular_orderedFile : orderedFile.Regular := by decide

theorem parentsFirst_orderedFile : Hierarchy.ParentsFirst orderedFile.classes :=
  Hierarchy.parentsFirst_of_getElem (by decide)

/-- The settled file is written. -/
theorem encode_orderedFile : ∃ b, encode orderedFile = .ok b ∧ b.length < 2 ^ 32 := by
  have modest : Modest orderedFile := by
    constructor
    all_goals decide
  have ordered := Hierarchy.order_of_parentsFirst parentsFirst_orderedFile
  have room : roomOf orderedFile < 2 ^ 32 := by decide +kernel
  obtain ⟨b, written, _, small⟩ := modest.exists_small regular_orderedFile.known room ordered
  exact ⟨b, written, small⟩

/-- The file that is out of order takes one pass to settle. The other one has an annotation,
a gap among its initial values and a version to be raised, and is still written to the bytes
of its normal form at once. -/
theorem encode_stable_shuffledFile : ∃ b b', encode shuffledFile = .ok b ∧ decode b = .ok sortedFile
    ∧ encode sortedFile = .ok b' ∧ decode b' = .ok sortedFile ∧ encode orderedFile = .ok b' := by
  obtain ⟨b, written, _, small⟩ := encode_shuffledFile
  obtain ⟨d, settled, small'⟩ := encode_orderedFile
  have read {f : File} {bytes : List UInt8} (regular : f.Regular) (written : encode f = .ok bytes)
      (small : bytes.length < 2 ^ 32) : decode bytes = .ok f.normal :=
    decode_encode_normal written small regular.known regular.flags regular.kinds regular.methods
      regular.fields
  have first := read regular_shuffledFile written small
  have second := read regular_orderedFile settled small'
  rw [normal_shuffledFile] at first
  rw [normal_orderedFile] at second
  obtain ⟨b', again, stable, _⟩ :=
    encode_stable regular_shuffledFile (by decide) written small first
  obtain ⟨d', again', _, same⟩ :=
    encode_stable regular_orderedFile (by decide) settled small' second
  obtain rfl : d' = d := same parentsFirst_orderedFile (by decide)
  obtain rfl : d' = b' := Except.ok.inj (again'.symm.trans again)
  exact ⟨b, d', written, first, again, (stable small').1, settled⟩

end StubJar.Container
