import Mathlib.Data.List.Permutation
import StubJar.Proofs.Container.Sizes

/-!
# Writing and reading a file

What is written is read back in its normal form (`decode_encode_normal`), if every flag
has a meaning, the kinds of method handles go with their members, and nothing is
listed twice. A version that has no method handles is raised exactly where a value
needs one (`needsHandles_eq`).
-/

namespace StubJar.Container

open StubJar.Dalvik StubJar.Order

/-! ## Values that need method handles -/

/-- What a value mentions for being a method type or a method handle. -/
def handleMentions : Value → List Mention
  | .methodType p => [.prototype p]
  | .methodHandle h => [.handle h]
  | _ => []

mutual

/-- What a value mentions that asks for a version are the handles and prototypes among its
parts. -/
theorem filter_mentions (v : Value) :
    v.mentions.filter Mention.needsHandles = v.parts.flatMap handleMentions := by
  cases v with
  | array items =>
    rw [Value.mentions, Value.parts, filter_allMentions items, List.flatMap_cons]
    rfl
  | nested d elements =>
    rw [Value.mentions, Value.parts, List.filter_cons_of_neg Bool.false_ne_true,
      filter_elementMentions elements, List.flatMap_cons]
    rfl
  | _ => rfl

theorem filter_allMentions (vs : List Value) :
    (Value.allMentions vs).filter Mention.needsHandles
      = (Value.allParts vs).flatMap handleMentions := by
  cases vs with
  | nil => rfl
  | cons v vs =>
    rw [Value.allMentions, Value.allParts, List.filter_append, filter_mentions v,
      filter_allMentions vs, List.flatMap_append]

theorem filter_elementMentions (elements : List (String × Value)) :
    (Value.elementMentions elements).filter Mention.needsHandles
      = (Value.elementParts elements).flatMap handleMentions := by
  cases elements with
  | nil => rfl
  | cons e elements =>
    rw [Value.elementMentions, Value.elementParts, List.filter_cons_of_neg Bool.false_ne_true,
      List.filter_append, filter_mentions e.2, filter_elementMentions elements, List.flatMap_append]

end

theorem filter_annotation (a : Annotation) :
    a.mentions.filter Mention.needsHandles = a.values.flatMap handleMentions := by
  unfold Annotation.mentions Annotation.values
  rw [List.filter_cons_of_neg Bool.false_ne_true, filter_elementMentions]

/-- So it is with a set of annotations. -/
theorem filter_annotations (annotations : List Annotation) :
    (annotations.flatMap Annotation.mentions).filter Mention.needsHandles
      = (annotations.flatMap Annotation.values).flatMap handleMentions := by
  rw [List.filter_flatMap, List.flatMap_assoc]
  exact List.flatMap_congr fun a _ => filter_annotation a

theorem filter_field (x : Field) : x.mentions.filter Mention.needsHandles
    = (x.initial.elim [] Value.parts ++ x.annotations.flatMap Annotation.values).flatMap
      handleMentions := by
  have initial : (x.initial.elim [] Value.mentions).filter Mention.needsHandles
      = (x.initial.elim [] Value.parts).flatMap handleMentions := by
    cases x.initial with
    | none => rfl
    | some v => exact filter_mentions v
  rw [Field.mentions, List.filter_cons_of_neg Bool.false_ne_true, List.filter_append, initial,
    filter_annotations, List.flatMap_append]

theorem filter_method (m : Method) : m.mentions.filter Mention.needsHandles
    = ((m.annotations ++ m.parameterAnnotations.flatten).flatMap Annotation.values).flatMap
      handleMentions := by
  rw [Method.mentions, List.filter_cons_of_neg Bool.false_ne_true, ← List.flatMap_append,
    filter_annotations]

/-- Of what a file mentions, its values mention what needs method handles. -/
theorem filter_file (f : File) :
    f.mentions.filter Mention.needsHandles = f.values.flatMap handleMentions := by
  rw [File.mentions, File.values, List.filter_flatMap, List.flatMap_assoc]
  refine List.flatMap_congr fun c _ => ?_
  have types : ((c.type :: c.parents).map Mention.type).filter Mention.needsHandles = [] :=
    List.filter_eq_nil_iff.mpr fun m hm => by
      obtain ⟨d, _, rfl⟩ := List.mem_map.mp hm
      exact Bool.false_ne_true
  have strings : (c.sourceFile.toList.map Mention.string).filter Mention.needsHandles = [] :=
    List.filter_eq_nil_iff.mpr fun m hm => by
      obtain ⟨s, _, rfl⟩ := List.mem_map.mp hm
      exact Bool.false_ne_true
  rw [ClassDecl.mentions, ClassDecl.values, List.filter_append, List.filter_append,
    List.filter_append, List.filter_append, types, strings, filter_annotations, List.filter_flatMap,
    List.filter_flatMap, List.flatMap_append, List.flatMap_append, List.nil_append, List.nil_append]
  have fields : c.fields.flatMap (fun x => x.mentions.filter Mention.needsHandles)
      = (c.fields.flatMap fun x => x.initial.elim [] Value.parts
        ++ x.annotations.flatMap Annotation.values).flatMap handleMentions := by
    rw [List.flatMap_assoc]
    exact List.flatMap_congr fun x _ => filter_field x
  have methods : c.methods.flatMap (fun m => m.mentions.filter Mention.needsHandles)
      = (c.methods.flatMap fun m => (m.annotations ++ m.parameterAnnotations.flatten).flatMap
        Annotation.values).flatMap handleMentions := by
    rw [List.flatMap_assoc]
    exact List.flatMap_congr fun m _ => filter_method m
  rw [fields, methods]

/-- A file asks for a version if one of its values does. -/
theorem mem_mentions_needing {f : File} {m : Mention} :
    m ∈ f.mentions ∧ m.needsHandles = true ↔ ∃ v ∈ f.values, m ∈ handleMentions v := by
  rw [← List.mem_filter, filter_file, List.mem_flatMap]

/-- The version is raised exactly where a value needs method handles. -/
theorem needsHandles_eq (f : File) : (poolOf f).needsHandles = f.usesHandles := by
  change f.mentions.any Mention.needsHandles = f.values.any Value.isHandle
  rw [Bool.eq_iff_iff, List.any_eq_true, List.any_eq_true]
  constructor
  · rintro ⟨m, needs⟩
    obtain ⟨v, hv, hm⟩ := mem_mentions_needing.mp needs
    refine ⟨v, hv, ?_⟩
    cases v
    case methodType p => rfl
    case methodHandle h => rfl
    all_goals cases hm
  · rintro ⟨v, hv, handle⟩
    have some : ∃ m, m ∈ handleMentions v := by
      cases v
      case methodType p => exact ⟨_, List.mem_singleton_self _⟩
      case methodHandle h => exact ⟨_, List.mem_singleton_self _⟩
      all_goals cases handle
    obtain ⟨m, hm⟩ := some
    exact ⟨m, mem_mentions_needing.mpr ⟨v, hv, hm⟩⟩

/-- A handle that is mentioned is a value. -/
theorem handle_value {f : File} {h : MethodHandle} (mem : h ∈ f.mentions.flatMap Mention.handles) :
    .methodHandle h ∈ f.values := by
  obtain ⟨m, hm, hh⟩ := List.mem_flatMap.mp mem
  cases m
  case handle h' =>
    obtain rfl := List.mem_singleton.mp hh
    obtain ⟨v, hv, mentions⟩ := mem_mentions_needing.mp ⟨hm, rfl⟩
    cases v
    case methodHandle h' =>
      obtain ⟨rfl⟩ := List.mem_singleton.mp mentions
      exact hv
    case methodType p => cases List.mem_singleton.mp mentions
    all_goals cases mentions
  all_goals cases hh

/-! ## Round trip -/

variable {f : File}

/-- A field that its class lists once is given its own annotations. -/
theorem given_field {c : Placed} (hc : c ∈ placedOf f) (distinct : c.type.FieldsDistinct)
    {x : Field} (hx : x ∈ c.type.fields) :
    given f (.field c.position ((poolOf f).field x.ref)) = x.annotations := by
  obtain ⟨stands, members⟩ := mem_placedOf.mp hc
  have inside := List.mem_of_getElem? stands
  refine given_of_unique (fun some => mem_owned.mpr ⟨some, c, hc, Or.inr (Or.inl
    ⟨((poolOf f).field x.ref, x), members ▸ mem_fields.mpr ⟨hx, rfl⟩, rfl, rfl⟩)⟩) fun as has => ?_
  obtain ⟨_, d, hd, ⟨same, _⟩ | ⟨⟨j, y⟩, hy, same, rfl⟩ | ⟨_, _, same, _⟩ | ⟨_, _, _, same, _⟩⟩ :=
    mem_owned.mp has
  · cases same
  · obtain ⟨position, index⟩ := SetOwner.field.inj same
    obtain rfl := placed_unique hc hd position
    rw [members, mem_fields] at hy
    have ref : x.ref = y.ref := Table.indexOf_injective _ (field_mentioned inside hx)
      (field_mentioned inside hy.1) (index.trans hy.2)
    rw [List.inj_on_of_nodup_map distinct hx hy.1 ref]
  · cases same
  · cases same

/-- A class that lists no field twice is read back in its normal form. -/
theorem readClass_eq {n : Nat} {c : ClassDecl} (stands : f.classes[n]? = some c)
    (distinct : c.FieldsDistinct) : readClass f n c = c.normal := by
  have placed : (⟨n, c, Members.ofClass (poolOf f) c⟩ : Placed) ∈ placedOf f :=
    mem_placedOf.mpr ⟨stands, rfl⟩
  have fields : readFields (notedFor f n) c.fields = normalFields c.fields :=
    readFields_eq distinct fun x hx => congrArg normalSet (given_field placed distinct hx)
  rw [readClass, fields]
  rfl

/-- Classes that list no field twice are read back in their normal forms. -/
theorem readClasses_eq (distinct : ∀ c ∈ f.classes, c.FieldsDistinct) (positions : List Nat) :
    readClasses f positions = (positions.filterMap (f.classes[·]?)).map ClassDecl.normal := by
  rw [readClasses, List.map_filterMap]
  refine List.filterMap_congr fun i _ => ?_
  cases stands : f.classes[i]? with
  | none => rfl
  | some c =>
    exact congrArg some (readClass_eq stands (distinct c (List.mem_of_getElem? stands)))

/-- What a regular file is written to can be read. -/
theorem legible_of_regular {f : File} {order : List Nat} {b : List UInt8} (regular : f.Regular)
    (writes : Writes f order b) (small : b.length < 2 ^ 32) : Legible f order b :=
  ⟨writes, regular.known, regular.flags, fun h mem => regular.kinds h (handle_value mem),
    regular.methods, small⟩

/-- What is written is read back in its normal form. -/
theorem decode_encode_normal {b : List UInt8} (written : encode f = .ok b) (small : b.length < 2 ^ 32)
    (known : 35 ≤ f.version ∧ f.version ≤ 39) (flags : ∀ c ∈ f.classes, c.FlagsKnown)
    (kinds : ∀ h, .methodHandle h ∈ f.values → h.Agrees) (methods : f.MethodsDistinct)
    (fields : ∀ c ∈ f.classes, c.FieldsDistinct) : decode b = .ok f.normal := by
  obtain ⟨order, ordered, writes⟩ := encode_eq_ok.mp written
  have legible : Legible f order b :=
    ⟨writes, known, flags, fun h mem => kinds h (handle_value mem), methods, small⟩
  rw [legible.decode_eq, File.normal, File.inOrder, ordered, readClasses_eq fields,
    writtenVersion, needsHandles_eq]

/-! ## A file that is out of order -/

/-- A handle that reads a static field. -/
def staticHandle : MethodHandle := ⟨.staticGet, .field ⟨⟨"LB;"⟩, "x", ⟨"J"⟩⟩⟩

/-- An annotation with its elements out of order: a list of values and a handle. -/
def shuffledNote : Annotation :=
  ⟨.runtime, ⟨"LN;"⟩, [("q", .array [.int 1, .string "s"]), ("p", .methodHandle staticHandle)]⟩

/-- A class with two static fields, the second of them without an initial value, and with a
method that has a body and an annotated parameter. -/
def shuffledClass : ClassDecl :=
  ⟨⟨"LB;"⟩, ⟨1⟩, some ⟨"LA;"⟩, [], some "B.java", [shuffledNote],
    [⟨⟨⟨"LB;"⟩, "y", ⟨"I"⟩⟩, ⟨9⟩, some (.int 7), []⟩,
      ⟨⟨⟨"LB;"⟩, "x", ⟨"J"⟩⟩, ⟨9⟩, none, [shuffledNote]⟩],
    [⟨⟨⟨"LB;"⟩, "m", ⟨⟨"I"⟩, [⟨"I"⟩]⟩⟩, ⟨1⟩, [], [[shuffledNote]],
      some ⟨2, 2, 0, 0, [0x010F]⟩⟩]⟩

/-- The class in front of its superclass. -/
def shuffledFile : File := ⟨35, [shuffledClass, ⟨⟨"LA;"⟩, ⟨1⟩, none, [], none, [], [], []⟩]⟩

theorem regular_shuffledFile : shuffledFile.Regular := by decide

theorem modest_shuffledFile : Modest shuffledFile := by
  constructor
  all_goals decide

/-- The file is written, the superclass in front. -/
theorem encode_shuffledFile : ∃ b, encode shuffledFile = .ok b ∧ Writes shuffledFile [1, 0] b
    ∧ b.length < 2 ^ 32 := by
  have ordered : Hierarchy.order shuffledFile.classes = .ok [1, 0] := by
    rw [Hierarchy.order_eq, Hierarchy.parentsOf_eq]
    decide
  have room : roomOf shuffledFile < 2 ^ 32 := by decide +kernel
  exact modest_shuffledFile.exists_small regular_shuffledFile.known room ordered

/-- The annotation with its elements in order. -/
def sortedNote : Annotation :=
  ⟨.runtime, ⟨"LN;"⟩, [("p", .methodHandle staticHandle), ("q", .array [.int 1, .string "s"])]⟩

/-- The class with its members and annotations in order. In front of the field that has an
initial value, the other one has the zero of its type. -/
def sortedClass : ClassDecl :=
  ⟨⟨"LB;"⟩, ⟨1⟩, some ⟨"LA;"⟩, [], some "B.java", [sortedNote],
    [⟨⟨⟨"LB;"⟩, "x", ⟨"J"⟩⟩, ⟨9⟩, some (.long 0), [sortedNote]⟩,
      ⟨⟨⟨"LB;"⟩, "y", ⟨"I"⟩⟩, ⟨9⟩, some (.int 7), []⟩],
    [⟨⟨⟨"LB;"⟩, "m", ⟨⟨"I"⟩, [⟨"I"⟩]⟩⟩, ⟨1⟩, [], [[sortedNote]],
      some ⟨2, 2, 0, 0, [0x010F]⟩⟩]⟩

/-- The file with its classes in order, in the first version that has handles. -/
def sortedFile : File := ⟨38, [⟨⟨"LA;"⟩, ⟨1⟩, none, [], none, [], [], []⟩, sortedClass]⟩

/-- The normal form of the shuffled file is the one that is sorted and filled in. -/
theorem normal_shuffledFile : shuffledFile.normal = sortedFile := by cbv

/-- That is what is read back. -/
theorem decode_encode_normal_shuffledFile :
    ∃ b, encode shuffledFile = .ok b ∧ decode b = .ok sortedFile := by
  obtain ⟨b, written, _, small⟩ := encode_shuffledFile
  have regular := regular_shuffledFile
  have read := decode_encode_normal written small regular.known regular.flags regular.kinds
    regular.methods regular.fields
  rw [normal_shuffledFile] at read
  exact ⟨b, written, read⟩

end StubJar.Container
