import Mathlib.Data.Nat.Digits.Defs
import StubJar.Proofs.Container.Reachable

/-!
# What is written is in order

Readers of a container rely on the order of nearly everything in it. `Ordered f order
bytes` lists the orders, each next to the place where the things in question stand:
strings by their UTF-16 units, rows of the other tables by the indices they hold, classes
behind their parents, members by their indices, the annotations of a set by their types,
the elements of an annotation by their names at every depth, and the entries of a
directory by the members they are about.

All of it comes from two facts. A table is sorted under keys that tell its items apart,
so the keys ascend strictly (`Table.strict_items`); and what is not in a table is sorted
where it is written, so its indices do not descend.

The order holds whatever the version and the size of the file are. A version of more than
three digits moves everything behind it; offsets then count from where they would without
the digits in excess (`Writes.signed_at`).
-/

namespace StubJar.Container

open StubJar.Bytes StubJar.Dalvik StubJar.Digest StubJar.Order StubJar.Text

/-! ## The digits of a version -/

/-- Digits have a byte each. -/
theorem length_utf8_digits {digits : List Char} (each : ∀ c ∈ digits, c.isDigit) :
    (utf8 (String.ofList digits)).length = digits.length := by
  have bytes : utf8 (String.ofList digits) = digits.flatMap String.utf8EncodeChar := by
    simp [utf8, List.utf8Encode]
  have single : ∀ c ∈ digits, (String.utf8EncodeChar c).length = 1 := by
    intro c hc
    have digit := each c hc
    simp only [Char.isDigit, Bool.and_eq_true, decide_eq_true_eq] at digit
    rw [String.length_utf8EncodeChar, Char.utf8Size_eq_one_iff]
    exact UInt32.le_trans digit.2 (by decide)
  rw [bytes, length_flatMap_of single, Nat.mul_one]

/-- A version has three digits, or as many as it needs. -/
theorem length_renderVersion (version : Nat) :
    (utf8 (File.renderVersion version)).length = max 3 (Nat.toDigits 10 version).length := by
  rw [File.renderVersion, decimal, length_utf8_digits, List.length_leftpad]
  intro c hc
  rcases List.mem_append.mp hc with pad | digit
  · rw [(List.mem_replicate.mp pad).2]
    decide
  · exact Nat.isDigit_of_mem_toDigits (by decide) (by decide) digit

/-- The signed part stands behind the first 32 bytes, the digits in excess of three left
out. -/
theorem Writes.signed_at {f : File} {order : List Nat} {b : List UInt8} (h : Writes f order b) :
    ∃ bytes, bytes <:+ b ∧ (f.version ≤ 999 → bytes = b) ∧ Stands bytes 32 (signedOf f order) := by
  have spelled := length_renderVersion (writtenVersion (poolOf f) f)
  have length : (sealOf f order).length + 3
      = 32 + (utf8 (File.renderVersion (writtenVersion (poolOf f) f))).length := by
    simp only [sealOf, List.length_append, length_le, length_digest, magic, List.length_cons,
      List.length_nil]
    omega
  refine ⟨b.drop ((sealOf f order).length - 32), List.drop_suffix _ _, ?_, ?_⟩
  · intro short
    have known : writtenVersion (poolOf f) f < 10 ^ 3 := by
      rw [writtenVersion]
      split
      · simp only [File.handleVersion]
        omega
      · omega
    have digits := Nat.toDigits_length 10 (writtenVersion (poolOf f) f) 3 (by decide) known
    rw [show (sealOf f order).length - 32 = 0 by omega, List.drop_zero]
  · rw [h.bytes, stamp_eq, List.drop_append_of_le_length (by omega)]
    refine ⟨(sealOf f order).drop ((sealOf f order).length - 32), [], by rw [List.append_nil], ?_⟩
    rw [List.length_drop]
    omega

/-! ## What ascends -/

/-- Indices that do not descend, so that the distance from one to the next is what is
left when the one is taken from the other; the first distance is from zero. -/
structure Ascends {α : Type} (members : List (Nat × α)) : Prop where
  indices : (members.map Prod.fst).Pairwise (· ≤ ·)
  distances : ∀ x ∈ members.zip (0 :: members.map Prod.fst), x.2 ≤ x.1.1

/-- No index stands twice. -/
def Strict {α : Type} (members : List (Nat × α)) : Prop := (members.map Prod.fst).Pairwise (· < ·)

/-- The form of an annotation has its elements in the order of the indices of their
names. -/
def ByNames (p : Pool) (d : Descriptor) (elements : List (String × Value)) (form : List UInt8) :
    Prop :=
  ∃ sorted : List (String × Value), sorted.Perm elements ∧ (sorted.map fun e => p.string e.1).Pairwise (· ≤ ·)
    ∧ form = uleb (p.type d) ++ counted (sorted.map (encodeElement p))

/-- So has the form of every annotation among these values, which are part of the
bytes. -/
def NestedByNames (p : Pool) (values : List Value) (bytes : List UInt8) : Prop :=
  ∀ d elements, .nested d elements ∈ values → ∃ form, ByNames p d elements form
    ∧ (UInt8.ofNat ValueKind.nested.code :: form) <:+: bytes

/-- An annotation, and those inside of its values. -/
structure AnnotationByNames (p : Pool) (a : Annotation) : Prop where
  own : ∃ form, ByNames p a.type a.elements form
    ∧ encodeAnnotationItem p a = UInt8.ofNat a.visibility.code :: form
  nested : NestedByNames p a.values (encodeAnnotationItem p a)

/-- A set of annotations at its offset: the offsets of its annotations in the order of
the indices of their types. -/
structure SetOrdered (p : Pool) (bytes : List UInt8) (annotations : List Annotation)
    (offset : Nat) : Prop where
  types : ((orderedSet p annotations).map fun a => p.type a.type).Pairwise (· ≤ ·)
  stands : ∃ entries, Stands bytes offset (offsetList entries)
    ∧ List.Forall₂ (fun a entry => Stands bytes entry (encodeAnnotationItem p a))
      (orderedSet p annotations) entries
  elements : ∀ a ∈ annotations, AnnotationByNames p a

section Parts

variable (f : File) (bytes : List UInt8) (c : Placed)

/-- The sets of the fields of a class, by the indices of the fields. -/
def fieldEntries : List (Nat × Nat) :=
  AnnotationLayout.directoryEntries c.members.fields
    fun i => (setOffsetsOf f)[SetOwner.field c.position i]?

/-- The sets of its methods. -/
def methodEntries : List (Nat × Nat) :=
  AnnotationLayout.directoryEntries c.members.methods
    fun i => (setOffsetsOf f)[SetOwner.method c.position i]?

/-- The lists of the sets of their parameters. -/
def parameterEntries : List (Nat × Nat) :=
  AnnotationLayout.directoryEntries c.members.methods fun i => (listOffsetsOf f)[(c.position, i)]?

/-- The directory of a class: three lists in the order of the indices of the members. -/
structure DirectoryOrdered : Prop where
  stands : FoundAt bytes (AnnotationLayout.directory? (setOffsetsOf f) (listOffsetsOf f) c)
    ((layoutOf f).annotations.directoryOffsets.getD c.position 0)
  form : ∀ item, AnnotationLayout.directory? (setOffsetsOf f) (listOffsetsOf f) c = some item →
    item = le 4 ((setOffsetsOf f)[SetOwner.type c.position]?.getD 0) ++ le 4 (fieldEntries f c).length
      ++ le 4 (methodEntries f c).length ++ le 4 (parameterEntries f c).length
      ++ (fieldEntries f c ++ methodEntries f c ++ parameterEntries f c).flatMap encodeEntry
  fields : ((fieldEntries f c).map Prod.fst).Pairwise (· ≤ ·)
  methods : ((methodEntries f c).map Prod.fst).Pairwise (· ≤ ·)
  parameters : ((parameterEntries f c).map Prod.fst).Pairwise (· ≤ ·)

/-- The members of a class: four lists in the order of the indices, strictly where no
member is listed twice. -/
structure MembersOrdered : Prop where
  stands : FoundAt bytes (encodeClassData? (codeOffsetsOf f) c.members)
    ((layoutOf f).classDataOffsets.getD c.position 0)
  statics : Ascends c.members.statics
  instances : Ascends c.members.instances
  directs : Ascends c.members.directs
  virtuals : Ascends c.members.virtuals
  fields_strict : (c.type.fields.map Field.ref).Nodup →
    Strict c.members.statics ∧ Strict c.members.instances
  methods_strict : (c.type.methods.map Method.ref).Nodup →
    Strict c.members.directs ∧ Strict c.members.virtuals

/-- The initial values of a class, in which annotations may stand as values. -/
structure InitialsOrdered : Prop where
  stands : FoundAt bytes
    (if c.members.initialValues.isEmpty then none
      else some (encodeArray (poolOf f) c.members.initialValues))
    ((layoutOf f).arrayOffsets.getD c.position 0)
  nested : NestedByNames (poolOf f) (Value.allParts c.members.initialValues)
    (encodeArray (poolOf f) c.members.initialValues)

end Parts

/-- The bytes of a file hold everything in the order that the format asks for, the rows
of its classes in the given order. -/
structure Ordered (f : File) (order : List Nat) (bytes : List UInt8) : Prop where
  /-- Every table stands where its entry says. -/
  tables : List.Forall₂ (fun (e : MapEntry) rows => Stands bytes e.offset rows) (layoutOf f).tables
    (tablePieces (poolOf f) (layoutOf f) f.classes order)
  /-- Every string stands at the offset in its row. -/
  texts : List.Forall₂ (fun s offset => Stands bytes offset (encodeString s))
    (poolOf f).strings.items (layoutOf f).strings.offsets.toList
  strings : (poolOf f).strings.items.Pairwise fun s t => units s < units t
  types : ((poolOf f).types.items.map fun d => (poolOf f).string d.text).Pairwise (· < ·)
  prototypes : (poolOf f).prototypes.items.Pairwise fun q r =>
    prototypeKey (poolOf f) q < prototypeKey (poolOf f) r
  /-- The parameters of a prototype stand at the offset in its row. -/
  parameters : ∀ q ∈ (poolOf f).prototypes.items, q.parameters ≠ [] →
    Stands bytes ((layoutOf f).typeListOffset (poolOf f) q.parameters)
      (encodeTypeList (q.parameters.map (poolOf f).type))
  fields : (poolOf f).fields.items.Pairwise fun r s => fieldKey (poolOf f) r < fieldKey (poolOf f) s
  methods : (poolOf f).methods.items.Pairwise fun r s => methodKey (poolOf f) r < methodKey (poolOf f) s
  /-- Every class has one row. -/
  positions : order.Perm (List.range f.classes.length)
  classes : (f.classes.map ClassDecl.type).Nodup →
    Hierarchy.ParentsFirst (order.filterMap (f.classes[·]?))
  members : ∀ c ∈ placedOf f, MembersOrdered f bytes c
  sets : List.Forall₂ (fun (x : SetOwner × List Annotation) => SetOrdered (poolOf f) bytes x.2)
    (owned f) (layoutOf f).annotations.sets.offsets.toList
  initials : ∀ c ∈ placedOf f, InitialsOrdered f bytes c
  directories : ∀ c ∈ placedOf f, DirectoryOrdered f bytes c

/-! ## Elements -/

section Elements

variable {p : Pool}

/-- What is sorted under single numbers does not descend. -/
theorem pairwise_sortOn {α : Type} (index : α → Nat) (items : List α) :
    ((sortOn (fun a => [index a]) items).map index).Pairwise (· ≤ ·) := by
  refine List.pairwise_map.mpr ((sortOn_ascending _ items).imp fun {a b} le => ?_)
  rwa [keyLE_singleton, decide_eq_true_eq] at le

/-- The elements of an annotation are written by their names. -/
theorem byNames_encodeParts (d : Descriptor) (elements : List (String × Value)) :
    ByNames p d elements (encodeParts p d elements) := by
  refine ⟨sortOn (fun e => [p.string e.1]) elements, sortOn_perm _ elements,
    pairwise_sortOn (fun e => p.string e.1) elements, ?_⟩
  have forms : orderedElements (encodeElements p elements)
      = (sortOn (fun e => [p.string e.1]) elements).map (encodeElement p) := by
    rw [orderedElements, encodeElements_eq, ← map_sortOn (fun e : String × Value => [p.string e.1]),
      List.map_map]
    · rfl
    · intro a _ b _
      rfl
  rw [encodeParts, forms]

/-- What is counted stands in one piece. -/
theorem infix_counted {form : List UInt8} {forms : List (List UInt8)} (mem : form ∈ forms) :
    form <:+: counted forms :=
  (List.infix_of_mem_flatten mem).trans (List.suffix_append _ _).isInfix

/-- The value of an element stands inside the annotation. -/
theorem infix_encodeParts {d : Descriptor} {elements : List (String × Value)} {e : String × Value}
    (mem : e ∈ elements) : encodeValue p e.2 <:+: encodeParts p d elements := by
  obtain ⟨sorted, perm, _, form⟩ := byNames_encodeParts (p := p) d elements
  have inside : encodeElement p e ∈ sorted.map (encodeElement p) :=
    List.mem_map_of_mem (perm.mem_iff.mpr mem)
  rw [form]
  exact (List.suffix_append _ _).isInfix.trans
    ((infix_counted inside).trans (List.suffix_append _ _).isInfix)

mutual

/-- The form of a value holds the forms of all values inside of it. -/
theorem infix_encodeValue {w : Value} (v : Value) (mem : w ∈ v.parts) :
    encodeValue p w <:+: encodeValue p v := by
  cases v with
  | array items =>
    rcases List.mem_cons.mp mem with rfl | inside
    · exact List.infix_refl _
    · obtain ⟨u, hu, part⟩ := infix_of_allParts items inside
      rw [encodeValue, encodeValues_eq]
      exact part.trans ((infix_counted (List.mem_map_of_mem hu)).trans (List.suffix_cons _ _).isInfix)
  | nested d elements =>
    rcases List.mem_cons.mp mem with rfl | inside
    · exact List.infix_refl _
    · obtain ⟨e, he, part⟩ := infix_of_elementParts elements inside
      rw [encodeValue]
      exact part.trans ((infix_encodeParts he).trans (List.suffix_cons _ _).isInfix)
  | _ =>
    obtain rfl := List.mem_singleton.mp mem
    exact List.infix_refl _

/-- A part of an array stands inside one of its items. -/
theorem infix_of_allParts {w : Value} (vs : List Value) (mem : w ∈ Value.allParts vs) :
    ∃ v ∈ vs, encodeValue p w <:+: encodeValue p v := by
  cases vs with
  | nil => cases mem
  | cons v vs =>
    rcases List.mem_append.mp mem with first | later
    · exact ⟨v, List.mem_cons_self, infix_encodeValue v first⟩
    · obtain ⟨u, hu, part⟩ := infix_of_allParts vs later
      exact ⟨u, List.mem_cons_of_mem _ hu, part⟩

/-- A part of an annotation stands inside the value of one of its elements. -/
theorem infix_of_elementParts {w : Value} (elements : List (String × Value))
    (mem : w ∈ Value.elementParts elements) :
    ∃ e ∈ elements, encodeValue p w <:+: encodeValue p e.2 := by
  cases elements with
  | nil => cases mem
  | cons e elements =>
    rcases List.mem_append.mp mem with first | later
    · exact ⟨e, List.mem_cons_self, infix_encodeValue e.2 first⟩
    · obtain ⟨e', he', part⟩ := infix_of_elementParts elements later
      exact ⟨e', List.mem_cons_of_mem _ he', part⟩

end

/-- Wherever the form of a nested annotation is, its elements are in order. -/
theorem nestedByNames_of_infix {values : List Value} {bytes : List UInt8}
    (part : ∀ w ∈ values, encodeValue p w <:+: bytes) : NestedByNames p values bytes := by
  intro d elements mem
  exact ⟨_, byNames_encodeParts d elements, part _ mem⟩

/-- An annotation is written by names, and so are those inside it. -/
theorem annotationByNames (a : Annotation) : AnnotationByNames p a where
  own := ⟨_, byNames_encodeParts a.type a.elements, rfl⟩
  nested := by
    refine nestedByNames_of_infix fun w mem => ?_
    obtain ⟨e, he, part⟩ := infix_of_elementParts a.elements mem
    exact part.trans ((infix_encodeParts he).trans (List.suffix_cons _ _).isInfix)

theorem nestedByNames_array (values : List Value) :
    NestedByNames p (Value.allParts values) (encodeArray p values) := by
  refine nestedByNames_of_infix fun w mem => ?_
  obtain ⟨v, hv, part⟩ := infix_of_allParts values mem
  rw [encodeArray, encodeValues_eq]
  exact part.trans (infix_counted (List.mem_map_of_mem hv))

end Elements

/-! ## Members and directories -/

section Members

variable {α : Type}

/-- Indices that do not descend are strict where none of them stands twice. -/
theorem strict_of_nodup {members : List (Nat × α)} (ascends : Ascends members)
    (nodup : (members.map Prod.fst).Nodup) : Strict members := by
  refine (ascends.indices.and nodup).imp ?_
  rintro i j ⟨le, differ⟩
  exact Nat.lt_of_le_of_ne le differ

/-- Indices that ascend have distances. -/
theorem distances_of_pairwise {members : List (Nat × α)} {previous : Nat}
    (ascending : (previous :: members.map Prod.fst).Pairwise (· ≤ ·)) :
    ∀ x ∈ members.zip (previous :: members.map Prod.fst), x.2 ≤ x.1.1 := by
  induction members generalizing previous with
  | nil =>
    intro x mem
    cases mem
  | cons m members ih =>
    intro x mem
    rw [List.map_cons, List.pairwise_cons] at ascending
    rw [List.map_cons, List.zip_cons_cons] at mem
    rcases List.mem_cons.mp mem with rfl | later
    · exact ascending.1 m.1 List.mem_cons_self
    · exact ih ascending.2 x later

/-- Members that are sorted ascend. -/
theorem ascends_byIndex (items : List (Nat × α)) : Ascends (Members.byIndex items) where
  indices := (List.pairwise_cons.mp (ascending_byIndex items)).2
  distances := distances_of_pairwise (ascending_byIndex items)

/-- Where things have indices of their own, a list without repetitions has an index for
each. -/
theorem nodup_byIndex (index : α → Nat) {items : List α}
    (injective : ∀ a ∈ items, ∀ b ∈ items, index a = index b → a = b) (nodup : items.Nodup) :
    ((Members.byIndex (items.map fun a => (index a, a))).map Prod.fst).Nodup := by
  have perm : (Members.byIndex (items.map fun a => (index a, a))).Perm
      (items.map fun a => (index a, a)) := sortOn_perm _ _
  rw [(perm.map Prod.fst).nodup_iff, List.map_map]
  exact nodup.map_on fun a ha b hb same => injective a ha b hb same

variable {f : File} {c : ClassDecl}

/-- Fields of a class that lists none of them twice are told apart by their indices. -/
theorem strict_fields (hc : c ∈ f.classes) (distinct : (c.fields.map Field.ref).Nodup)
    (keep : Field → Bool) :
    Strict (Members.byIndex
      ((c.fields.filter keep).map fun x => ((poolOf f).field x.ref, x))) := by
  apply strict_of_nodup (ascends_byIndex _)
  refine nodup_byIndex (fun x : Field => (poolOf f).field x.ref) ?_
    ((distinct.of_map _).filter _)
  intro x hx y hy same
  have hx := (List.mem_filter.mp hx).1
  have hy := (List.mem_filter.mp hy).1
  have refs : x.ref = y.ref := Table.indexOf_injective _ (field_mentioned hc hx)
    (field_mentioned hc hy) same
  exact List.inj_on_of_nodup_map distinct hx hy refs

/-- Methods that are listed once ascend strictly. -/
theorem strict_methods (hc : c ∈ f.classes) (distinct : (c.methods.map Method.ref).Nodup)
    (keep : Method → Bool) :
    Strict (Members.byIndex
      ((c.methods.filter keep).map fun x => ((poolOf f).method x.ref, x))) := by
  apply strict_of_nodup (ascends_byIndex _)
  refine nodup_byIndex (fun x : Method => (poolOf f).method x.ref) ?_
    ((distinct.of_map _).filter _)
  intro x hx y hy same
  have hx := (List.mem_filter.mp hx).1
  have hy := (List.mem_filter.mp hy).1
  have refs : x.ref = y.ref := Table.indexOf_injective _ (method_mentioned hc hx)
    (method_mentioned hc hy) same
  exact List.inj_on_of_nodup_map distinct hx hy refs

/-- The entries of a directory are in the order of their members. -/
theorem pairwise_directoryEntries (members : List (Nat × α)) (find? : Nat → Option Nat) :
    ((AnnotationLayout.directoryEntries members find?).map Prod.fst).Pairwise (· ≤ ·) := by
  refine List.pairwise_map.mpr ((sortOn_ascending _ _).imp ?_)
  rintro ⟨i, x⟩ ⟨j, y⟩ le
  simp only [keyLE, Bool.or_eq_true, Bool.and_eq_true, decide_eq_true_eq, beq_iff_eq] at le
  omega

end Members

/-! ## The whole container -/

namespace Writes

variable {f : File} {order : List Nat} {b bytes : List UInt8} {c : Placed}

/-- The members of a class stand in the order of their indices. -/
theorem membersOrdered (h : Writes f order b) (signed : Stands bytes 32 (signedOf f order))
    (hc : c ∈ placedOf f) : MembersOrdered f bytes c := by
  have run : (layoutOf f).classData ∈ (layoutOf f).runs := by simp [Layout.runs]
  obtain ⟨stands, members⟩ := mem_placedOf.mp hc
  have inside := List.mem_of_getElem? stands
  have fields (keep : Field → Bool) : ((c.type.fields.map fun x => ((poolOf f).field x.ref, x)).filter
      fun x => keep x.2) = (c.type.fields.filter keep).map fun x => ((poolOf f).field x.ref, x) := by
    rw [List.filter_map]
    rfl
  have methods (keep : Method → Bool) : ((c.type.methods.map fun x => ((poolOf f).method x.ref, x)).filter
      fun x => keep x.2) = (c.type.methods.filter keep).map fun x => ((poolOf f).method x.ref, x) := by
    rw [List.filter_map]
    rfl
  rw [Members.ofClass, fields Field.isStatic, fields (!·.isStatic), methods (·.flags.isDirect),
    methods (!·.flags.isDirect)] at members
  refine ⟨h.optional_at signed run hc, ?_, ?_, ?_, ?_, fun distinct => ⟨?_, ?_⟩,
    fun distinct => ⟨?_, ?_⟩⟩
  all_goals rw [members]
  · exact ascends_byIndex _
  · exact ascends_byIndex _
  · exact ascends_byIndex _
  · exact ascends_byIndex _
  · exact strict_fields inside distinct _
  · exact strict_fields inside distinct _
  · exact strict_methods inside distinct _
  · exact strict_methods inside distinct _

/-- So do the entries of its directory. -/
theorem directoryOrdered (h : Writes f order b) (signed : Stands bytes 32 (signedOf f order))
    (hc : c ∈ placedOf f) : DirectoryOrdered f bytes c where
  stands := by
    have run : (layoutOf f).annotations.directories ∈ (layoutOf f).runs := by
      simp [Layout.runs, AnnotationLayout.runs]
    exact h.optional_at signed run hc
  form := by
    intro item made
    rw [AnnotationLayout.directory?] at made
    split at made
    · cases made
    · exact (Option.some.inj made).symm
  fields := pairwise_directoryEntries _ _
  methods := pairwise_directoryEntries _ _
  parameters := pairwise_directoryEntries _ _

/-- Everything stands in its order. -/
theorem ordered (h : Writes f order b) (run : Hierarchy.order f.classes = .ok order)
    (signed : Stands bytes 32 (signedOf f order)) : Ordered f order bytes where
  tables := (h.tables_at signed).imp fun _ _ => And.left
  texts := by
    have run : (layoutOf f).strings ∈ (layoutOf f).runs := by simp [Layout.runs]
    have found : List.Forall₂ (fun item offset => 0 < offset ∧ Stands bytes offset item)
        ((poolOf f).strings.items.map encodeString) (layoutOf f).strings.offsets.toList :=
      h.items_at signed run
    exact (List.forall₂_map_left_iff.mp found).imp fun _ _ => And.right
  strings := Table.strict_items _ _ fun _ _ _ _ => units_injective
  types := by
    have strict := Table.strict_items (typeKey (poolOf f)) (f.mentions.flatMap Mention.types)
      fun _ hd _ he => typeKey_injective hd he
    refine List.pairwise_map.mpr (strict.imp fun {d e} lt => ?_)
    simpa [typeKey, List.cons_lt_cons_iff] using lt
  prototypes := Table.strict_items (prototypeKey (poolOf f)) _ fun _ hq _ hr =>
    prototypeKey_injective hq hr
  parameters := by
    intro q hq some
    have mentioned := (Table.mem_items _).mp hq
    exact (h.typeList_at signed some (Legible.parameters_listed mentioned some)).2
  fields := Table.strict_items (fieldKey (poolOf f)) _ fun _ hr _ hs => fieldKey_injective hr hs
  methods := Table.strict_items (methodKey (poolOf f)) _ fun _ hr _ hs => methodKey_injective hr hs
  positions := h.perm
  classes := Hierarchy.parentsFirst_order run
  members := fun _ hc => h.membersOrdered signed hc
  sets := by
    refine (h.entries_at signed).imp ?_
    rintro x offset ⟨entries, each, _, stands⟩
    exact ⟨pairwise_sortOn _ _, ⟨entries, stands, each⟩, fun a _ => annotationByNames a⟩
  initials := by
    intro c hc
    have run : (layoutOf f).arrays ∈ (layoutOf f).runs := by simp [Layout.runs]
    exact ⟨h.optional_at signed run hc, nestedByNames_array _⟩
  directories := fun _ hc => h.directoryOrdered signed hc

end Writes

/-- What is written is in the order that readers rely on. The tables are behind the version
of the format; only a version of more than three digits moves them. -/
theorem encode_ordered {f : File} {b : List UInt8} (written : encode f = .ok b) :
    ∃ order bytes, bytes <:+ b ∧ (f.version ≤ 999 → bytes = b) ∧ Ordered f order bytes
      ∧ (b.length < 2 ^ 32 → (poolOf f).Small) := by
  obtain ⟨order, run, h⟩ := encode_eq_ok.mp written
  obtain ⟨bytes, suffix, whole, signed⟩ := h.signed_at
  refine ⟨order, bytes, suffix, whole, h.ordered run signed, fun short => ?_⟩
  exact h.small_at signed (Nat.lt_of_le_of_lt suffix.length_le short)

/-- The file is written. -/
theorem encode_handleFile : ∃ b, encode handleFile = .ok b := by
  have first : Hierarchy.ParentsFirst handleFile.classes :=
    Hierarchy.parentsFirst_of_getElem (by decide)
  obtain ⟨b, written, _⟩ := modest_handleFile.exists_encode (Hierarchy.order_of_parentsFirst first)
  exact ⟨b, written⟩

theorem encode_ordered_handleFile : ∃ b, encode handleFile = .ok b
    ∧ ∃ order bytes, bytes <:+ b ∧ (handleFile.version ≤ 999 → bytes = b)
      ∧ Ordered handleFile order bytes ∧ (b.length < 2 ^ 32 → (poolOf handleFile).Small) := by
  obtain ⟨b, written⟩ := encode_handleFile
  exact ⟨b, written, encode_ordered written⟩

end StubJar.Container
