import StubJar.Proofs.Container.Lookups
import StubJar.Proofs.Container.Settled

/-!
# The tables hold what a file reaches

Collecting and writing walk a file separately. What is collected of a value is what its
parts name themselves (`Value.mem_mentions_iff`), at every depth, so the tables can be
said to hold exactly what the file reaches (`Exact`): each thing because the file names
it or because a row of another table does, and each of them once.

Everything that writing asks for is among it (`Complete`): every question has an answer,
which is the row of the thing asked for, and no other question makes a difference.
-/

namespace StubJar.Dalvik

variable {m : Mention}

/-! ## What a file names -/

/-- What a value names itself, the values inside it left out. -/
def Value.own : Value → List Mention
  | .array _ => []
  | .nested d elements => .type d :: elements.map fun e => .string e.1
  | v => v.mentions

@[simp] theorem Value.own_array (items : List Value) : (Value.array items).own = [] := rfl

@[simp] theorem Value.own_nested (d : Descriptor) (elements : List (String × Value)) :
    (Value.nested d elements).own = .type d :: elements.map fun e => .string e.1 := rfl

mutual

/-- What is collected of a value is what its parts name. -/
theorem Value.mem_mentions_iff (v : Value) : m ∈ v.mentions ↔ ∃ w ∈ v.parts, m ∈ w.own := by
  cases v with
  | array items =>
    rw [Value.mentions, Value.mem_allMentions_iff items]
    simp [Value.parts]
  | nested d elements =>
    rw [Value.mentions, List.mem_cons, Value.mem_elementMentions_iff elements]
    simp [Value.parts, or_assoc, eq_comm]
  | _ => simp [Value.parts, Value.own]

/-- What is collected of an array is what its parts name. -/
theorem Value.mem_allMentions_iff (vs : List Value) :
    m ∈ Value.allMentions vs ↔ ∃ w ∈ Value.allParts vs, m ∈ w.own := by
  cases vs with
  | nil => simp [Value.allMentions, Value.allParts]
  | cons v vs =>
    rw [Value.allMentions, Value.allParts, List.mem_append, Value.mem_mentions_iff v,
      Value.mem_allMentions_iff vs]
    simp only [List.mem_append, or_and_right, exists_or]

/-- What is collected of elements are their names and what the parts of their values name. -/
theorem Value.mem_elementMentions_iff (elements : List (String × Value)) :
    m ∈ Value.elementMentions elements
      ↔ (∃ e ∈ elements, m = .string e.1) ∨ ∃ w ∈ Value.elementParts elements, m ∈ w.own := by
  cases elements with
  | nil => simp [Value.elementMentions, Value.elementParts]
  | cons e elements =>
    obtain ⟨name, v⟩ := e
    rw [Value.elementMentions, Value.elementParts, List.mem_cons, List.mem_append,
      Value.mem_mentions_iff v, Value.mem_elementMentions_iff elements]
    simp only [List.exists_mem_cons_iff, List.mem_append, or_and_right, exists_or, or_assoc,
      or_left_comm]

end

/-- So is what is collected of an annotation, with its type and the names of its
elements. -/
theorem Annotation.mem_mentions_iff (a : Annotation) : m ∈ a.mentions
    ↔ (m = .type a.type ∨ ∃ e ∈ a.elements, m = .string e.1) ∨ ∃ w ∈ a.values, m ∈ w.own := by
  unfold Annotation.mentions Annotation.values
  rw [List.mem_cons, Value.mem_elementMentions_iff, or_assoc]

/-- What a class names, its annotations and its values left out. -/
def ClassDecl.own (c : ClassDecl) : List Mention :=
  (c.type :: c.parents).map .type ++ c.sourceFile.toList.map .string
    ++ c.fields.map (fun x => .field x.ref) ++ c.methods.map fun x => .method x.ref

/-- What is collected of a class is what it names, with its annotations and its values. -/
theorem ClassDecl.mem_mentions_iff (c : ClassDecl) : m ∈ c.mentions ↔ m ∈ c.own
    ∨ (∃ a ∈ c.everyAnnotation, m = .type a.type ∨ ∃ e ∈ a.elements, m = .string e.1)
    ∨ ∃ w ∈ c.values, m ∈ w.own := by
  have initial (x : Field) : m ∈ x.initial.elim [] Value.mentions
      ↔ ∃ w ∈ x.initial.elim [] Value.parts, m ∈ w.own := by
    cases x.initial with
    | none => simp
    | some v => exact Value.mem_mentions_iff v
  simp only [ClassDecl.mentions, ClassDecl.own, ClassDecl.everyAnnotation, ClassDecl.values,
    Field.mentions, Method.mentions, List.mem_append, List.mem_flatMap, List.mem_cons,
    Annotation.mem_mentions_iff, initial]
  -- The two sides name the same things and group them otherwise.
  grind

/-- The annotations of a file. -/
def File.annotations (f : File) : List Annotation := f.classes.flatMap ClassDecl.everyAnnotation

/-- The type and the elements of an annotation that is a value. -/
def Value.nested? : Value → Option (Descriptor × List (String × Value))
  | .nested d elements => some (d, elements)
  | _ => none

/-- Every annotation of a file as its type and its elements, those inside of values
included. -/
def File.everyAnnotation (f : File) : List (Descriptor × List (String × Value)) :=
  f.annotations.map (fun a => (a.type, a.elements)) ++ f.values.filterMap Value.nested?

section Named

variable {f : File}

theorem File.mem_mentions_iff : m ∈ f.mentions ↔ (∃ c ∈ f.classes, m ∈ c.own)
    ∨ (∃ a ∈ f.annotations, m = .type a.type ∨ ∃ e ∈ a.elements, m = .string e.1)
    ∨ ∃ w ∈ f.values, m ∈ w.own := by
  simp only [File.mentions, File.annotations, File.values, List.mem_flatMap, ClassDecl.mem_mentions_iff]
  constructor
  · rintro ⟨c, hc, own | ⟨a, ha, named⟩ | ⟨w, hw, named⟩⟩
    · exact Or.inl ⟨c, hc, own⟩
    · exact Or.inr (Or.inl ⟨a, ⟨c, hc, ha⟩, named⟩)
    · exact Or.inr (Or.inr ⟨w, ⟨c, hc, hw⟩, named⟩)
  · rintro (⟨c, hc, own⟩ | ⟨a, ⟨c, hc, ha⟩, named⟩ | ⟨w, ⟨c, hc, hw⟩, named⟩)
    · exact ⟨c, hc, Or.inl own⟩
    · exact ⟨c, hc, Or.inr (Or.inl ⟨a, ha, named⟩)⟩
    · exact ⟨c, hc, Or.inr (Or.inr ⟨w, hw, named⟩)⟩

/-- Whether something holds of an annotation of a file or of one inside of its values. -/
theorem File.exists_everyAnnotation {P : Descriptor × List (String × Value) → Prop} :
    (∃ a ∈ f.everyAnnotation, P a) ↔ (∃ a ∈ f.annotations, P (a.type, a.elements))
      ∨ ∃ d elements, .nested d elements ∈ f.values ∧ P (d, elements) := by
  have nested (w : Value) (d : Descriptor) (elements : List (String × Value)) :
      w.nested? = some (d, elements) ↔ w = .nested d elements := by
    cases w <;> simp [Value.nested?]
  simp [File.everyAnnotation, or_and_right, exists_or, nested]

/-! Of each kind of thing a file names: -/

/-- A string is collected from a class, an element or a value. -/
theorem File.string_mem_mentions {s : String} : .string s ∈ f.mentions
    ↔ (∃ c ∈ f.classes, c.sourceFile = some s) ∨ (∃ a ∈ f.everyAnnotation, ∃ e ∈ a.2, e.1 = s)
      ∨ .string s ∈ f.values := by
  have own (w : Value) : .string s ∈ w.own
      ↔ w = .string s ∨ ∃ d es, w = .nested d es ∧ ∃ e ∈ es, e.1 = s := by
    cases w <;> simp [Value.own, Value.mentions, eq_comm]
  have files : (∃ c ∈ f.classes, .string s ∈ c.own) ↔ ∃ c ∈ f.classes, c.sourceFile = some s := by
    simp [ClassDecl.own]
  have names : (∃ a ∈ f.annotations, Mention.string s = .type a.type
        ∨ ∃ e ∈ a.elements, Mention.string s = .string e.1)
      ↔ ∃ a ∈ f.annotations, ∃ e ∈ a.elements, e.1 = s := by
    simp [eq_comm]
  simp only [File.mem_mentions_iff, File.exists_everyAnnotation, files, names, own]
  grind

/-- So is a type, from a class, an annotation or a value. -/
theorem File.type_mem_mentions {d : Descriptor} : .type d ∈ f.mentions
    ↔ (∃ c ∈ f.classes, d ∈ c.type :: c.parents) ∨ (∃ a ∈ f.everyAnnotation, a.1 = d)
      ∨ .type d ∈ f.values := by
  have own (w : Value) : .type d ∈ w.own ↔ w = .type d ∨ ∃ es, w = .nested d es := by
    cases w <;> simp [Value.own, Value.mentions, eq_comm]
  have classes : (∃ c ∈ f.classes, .type d ∈ c.own) ↔ ∃ c ∈ f.classes, d ∈ c.type :: c.parents := by
    simp [ClassDecl.own]
  have types : (∃ a ∈ f.annotations, Mention.type d = .type a.type
        ∨ ∃ e ∈ a.elements, Mention.type d = .string e.1)
      ↔ ∃ a ∈ f.annotations, a.type = d := by
    simp [eq_comm]
  simp only [File.mem_mentions_iff, File.exists_everyAnnotation, classes, types, own]
  grind

/-- A prototype is collected from values alone. -/
theorem File.prototype_mem_mentions {q : Prototype} :
    .prototype q ∈ f.mentions ↔ .methodType q ∈ f.values := by
  have own (w : Value) : .prototype q ∈ w.own ↔ w = .methodType q := by
    cases w <;> simp [Value.own, Value.mentions, eq_comm]
  simp [File.mem_mentions_iff, ClassDecl.own, own]

/-- A field is collected from a class, or from a value that is one. -/
theorem File.field_mem_mentions {r : FieldRef} : .field r ∈ f.mentions
    ↔ (∃ c ∈ f.classes, ∃ x ∈ c.fields, x.ref = r) ∨ .field r ∈ f.values ∨ .enum r ∈ f.values := by
  have own (w : Value) : .field r ∈ w.own ↔ w = .field r ∨ w = .enum r := by
    cases w <;> simp [Value.own, Value.mentions, eq_comm]
  simp [File.mem_mentions_iff, ClassDecl.own, own, and_or_left, exists_or]

theorem File.method_mem_mentions {r : MethodRef} : .method r ∈ f.mentions
    ↔ (∃ c ∈ f.classes, ∃ x ∈ c.methods, x.ref = r) ∨ .method r ∈ f.values := by
  have own (w : Value) : .method r ∈ w.own ↔ w = .method r := by
    cases w <;> simp [Value.own, Value.mentions, eq_comm]
  simp [File.mem_mentions_iff, ClassDecl.own, own]

/-- A handle is collected from values alone. -/
theorem File.handle_mem_mentions {h : MethodHandle} :
    .handle h ∈ f.mentions ↔ .methodHandle h ∈ f.values := by
  have own (w : Value) : .handle h ∈ w.own ↔ w = .methodHandle h := by
    cases w <;> simp [Value.own, Value.mentions, eq_comm]
  simp [File.mem_mentions_iff, ClassDecl.own, own]

end Named

end StubJar.Dalvik

namespace StubJar.Container

open StubJar.Dalvik StubJar.Order

/-! ## What the tables hold -/

/-- The tables hold what a file reaches, each thing once. A thing is reached because the
file names it or because a row of a table before it does. -/
structure Exact (p : Pool) (f : File) : Prop where
  strings_once : p.strings.items.Nodup
  types_once : p.types.items.Nodup
  prototypes_once : p.prototypes.items.Nodup
  fields_once : p.fields.items.Nodup
  methods_once : p.methods.items.Nodup
  handles_once : p.handles.items.Nodup
  handles : ∀ h, h ∈ p.handles.items ↔ .methodHandle h ∈ f.values
  methods : ∀ r, r ∈ p.methods.items ↔ (∃ c ∈ f.classes, ∃ x ∈ c.methods, x.ref = r)
    ∨ .method r ∈ f.values ∨ ∃ h ∈ p.handles.items, h.member = .method r
  fields : ∀ r, r ∈ p.fields.items ↔ (∃ c ∈ f.classes, ∃ x ∈ c.fields, x.ref = r)
    ∨ .field r ∈ f.values ∨ .enum r ∈ f.values ∨ ∃ h ∈ p.handles.items, h.member = .field r
  prototypes : ∀ q, q ∈ p.prototypes.items ↔ .methodType q ∈ f.values
    ∨ ∃ r ∈ p.methods.items, r.prototype = q
  types : ∀ d, d ∈ p.types.items ↔ (∃ c ∈ f.classes, d ∈ c.type :: c.parents)
    ∨ (∃ a ∈ f.everyAnnotation, a.1 = d) ∨ .type d ∈ f.values
    ∨ (∃ r ∈ p.fields.items, r.owner = d ∨ r.type = d) ∨ (∃ r ∈ p.methods.items, r.owner = d)
    ∨ ∃ q ∈ p.prototypes.items, d ∈ q.result :: q.parameters
  strings : ∀ s, s ∈ p.strings.items ↔ (∃ d ∈ p.types.items, d.text = s)
    ∨ (∃ q ∈ p.prototypes.items, q.shorty? = some s) ∨ (∃ r ∈ p.fields.items, r.name = s)
    ∨ (∃ r ∈ p.methods.items, r.name = s) ∨ (∃ c ∈ f.classes, c.sourceFile = some s)
    ∨ (∃ a ∈ f.everyAnnotation, ∃ e ∈ a.2, e.1 = s) ∨ .string s ∈ f.values

/-- Everything that writing a file asks of the tables has an answer. -/
structure Complete (p : Pool) (f : File) : Prop where
  /-- Writing the file is writing it with these tables. -/
  used : encode f = encodeWith p f
  /-- Every prototype of the table has the letters that its row asks for. -/
  letters : ∀ q ∈ p.prototypes.items, q.shorty?.isSome
  /-- A question is answered by the row of the thing asked for. -/
  found : ∀ m ∈ lookups p f, ∃ i, p.answer? m = some i ∧ p.RowAt i m
  /-- A list of types that is not empty has an offset under its indices. -/
  lists : ∀ ds ∈ askedLists p f, ds ≠ [] →
    ∃ offset, (layoutWith p f).typeListOffsets[ds.map p.type]? = some offset
  /-- Nothing else is asked. -/
  only : ∀ p', p.SameRows p' → p.Alike p' (lookups p f) → encodeWith p' f = encodeWith p f

section Brought

variable {m : Mention} {ms : List Mention}

/-! What mentions bring with them is what they are, or comes from a row of what they
bring. -/

/-- Handles come with nothing else. -/
theorem mem_handles : ∀ h, h ∈ ms.flatMap Mention.handles ↔ .handle h ∈ ms := by
  intro h
  have each (m : Mention) : h ∈ m.handles ↔ m = .handle h := by
    cases m <;> simp [Mention.handles, eq_comm]
  simp [each]

/-- Methods come with handles, too. -/
theorem mem_methods_iff (r : MethodRef) : r ∈ ms.flatMap Mention.methods
    ↔ .method r ∈ ms ∨ ∃ h ∈ ms.flatMap Mention.handles, h.member = .method r := by
  have member (k : HandleMember) : r ∈ k.methods ↔ k = .method r := by
    cases k <;> simp [HandleMember.methods, eq_comm]
  have each (m : Mention) : r ∈ m.methods ↔ m = .method r ∨ ∃ h ∈ m.handles, h.member = .method r := by
    cases m <;> simp [Mention.methods, Mention.handles, member, eq_comm]
  simp only [List.mem_flatMap, each]
  grind

theorem mem_fields_iff (r : FieldRef) : r ∈ ms.flatMap Mention.fields
    ↔ .field r ∈ ms ∨ ∃ h ∈ ms.flatMap Mention.handles, h.member = .field r := by
  have member (k : HandleMember) : r ∈ k.fields ↔ k = .field r := by
    cases k <;> simp [HandleMember.fields, eq_comm]
  have each (m : Mention) : r ∈ m.fields ↔ m = .field r ∨ ∃ h ∈ m.handles, h.member = .field r := by
    cases m <;> simp [Mention.fields, Mention.handles, member, eq_comm]
  simp only [List.mem_flatMap, each]
  grind

/-- Prototypes come with methods. -/
theorem mem_prototypes_iff (q : Prototype) : q ∈ ms.flatMap Mention.prototypes
    ↔ .prototype q ∈ ms ∨ ∃ r ∈ ms.flatMap Mention.methods, r.prototype = q := by
  have each (m : Mention) : q ∈ m.prototypes ↔ m = .prototype q ∨ ∃ r ∈ m.methods, r.prototype = q := by
    cases m <;> simp [Mention.prototypes, Mention.methods, eq_comm]
  simp only [List.mem_flatMap, each]
  grind

/-- Types come with fields, methods and prototypes. -/
theorem mem_types_iff (d : Descriptor) : d ∈ ms.flatMap Mention.types ↔ .type d ∈ ms
    ∨ (∃ r ∈ ms.flatMap Mention.fields, r.owner = d ∨ r.type = d)
    ∨ (∃ r ∈ ms.flatMap Mention.methods, r.owner = d)
    ∨ ∃ q ∈ ms.flatMap Mention.prototypes, d ∈ q.result :: q.parameters := by
  have each (m : Mention) : d ∈ m.types ↔ m = .type d ∨ (∃ r ∈ m.fields, r.owner = d ∨ r.type = d)
      ∨ (∃ r ∈ m.methods, r.owner = d) ∨ ∃ q ∈ m.prototypes, d ∈ q.result :: q.parameters := by
    cases m <;> simp [Mention.types, Mention.fields, Mention.methods, Mention.prototypes, eq_comm]
  simp only [List.mem_flatMap, each]
  grind

/-- Strings come with all of them. -/
theorem mem_strings_iff (s : String) : s ∈ ms.flatMap Mention.strings
    ↔ (∃ d ∈ ms.flatMap Mention.types, d.text = s)
      ∨ (∃ q ∈ ms.flatMap Mention.prototypes, q.shorty? = some s)
      ∨ (∃ r ∈ ms.flatMap Mention.fields, r.name = s) ∨ (∃ r ∈ ms.flatMap Mention.methods, r.name = s)
      ∨ .string s ∈ ms := by
  have each (m : Mention) : s ∈ m.strings ↔ (∃ d ∈ m.types, d.text = s)
      ∨ (∃ q ∈ m.prototypes, q.shorty? = some s) ∨ (∃ r ∈ m.fields, r.name = s)
      ∨ (∃ r ∈ m.methods, r.name = s) ∨ m = .string s := by
    cases m with
    | string t => simp [Mention.strings, Mention.types, Mention.fields, Mention.methods,
        Mention.prototypes, eq_comm]
    | _ => simp [Mention.strings, or_comm, or_left_comm, or_assoc]
  simp only [List.mem_flatMap, each]
  grind

end Brought

/-- The tables hold what the file reaches, and nothing else. -/
theorem exact_poolOf (f : File) : Exact (poolOf f) f where
  strings_once := Table.nodup_items _ _
  types_once := Table.nodup_items _ _
  prototypes_once := Table.nodup_items _ _
  fields_once := Table.nodup_items _ _
  methods_once := Table.nodup_items _ _
  handles_once := Table.nodup_items _ _
  handles := by
    intro h
    simp only [poolOf, Pool.ofMentions, Table.mem_items, mem_handles, File.handle_mem_mentions]
  methods := by
    intro r
    simp only [poolOf, Pool.ofMentions, Table.mem_items, mem_methods_iff, File.method_mem_mentions, or_assoc]
  fields := by
    intro r
    simp only [poolOf, Pool.ofMentions, Table.mem_items, mem_fields_iff, File.field_mem_mentions, or_assoc]
  prototypes := by
    intro q
    simp only [poolOf, Pool.ofMentions, Table.mem_items, mem_prototypes_iff, File.prototype_mem_mentions]
  types := by
    intro d
    simp only [poolOf, Pool.ofMentions, Table.mem_items, mem_types_iff, File.type_mem_mentions, or_assoc]
  strings := by
    intro s
    simp only [poolOf, Pool.ofMentions, Table.mem_items, mem_strings_iff, File.string_mem_mentions]

/-! ## Every question has an answer -/

section Answers

variable {f : File} {m : Mention} {ms : List Mention}

/-- What the tables hold has an answer and a row. -/
theorem answer_of_holds (h : (Pool.ofMentions ms).Holds m) :
    ∃ i, (Pool.ofMentions ms).answer? m = some i ∧ (Pool.ofMentions ms).RowAt i m := by
  cases m with
  | string s => exact Table.index?_of_mem _ ((Table.mem_items _).mp h)
  | type d => exact Table.index?_of_mem _ ((Table.mem_items _).mp h)
  | prototype q => exact Table.index?_of_mem _ ((Table.mem_items _).mp h)
  | field r => exact Table.index?_of_mem _ ((Table.mem_items _).mp h)
  | method r => exact Table.index?_of_mem _ ((Table.mem_items _).mp h)
  | handle k => exact Table.index?_of_mem _ ((Table.mem_items _).mp h)

/-- The rows of the tables name nothing that has no row. -/
theorem holds_of_row (letters : ∀ q ∈ ms.flatMap Mention.prototypes, q.shorty?.isSome)
    (mem : m ∈ rowLookups (Pool.ofMentions ms)) : (Pool.ofMentions ms).Holds m := by
  have mem_types {d : Descriptor} (h : d ∈ ms.flatMap Mention.types) :
      (Pool.ofMentions ms).Holds (.type d) := (Table.mem_items _).mpr h
  have mem_strings {s : String} (h : s ∈ ms.flatMap Mention.strings) :
      (Pool.ofMentions ms).Holds (.string s) := (Table.mem_items _).mpr h
  simp only [rowLookups, List.mem_append, List.mem_map, List.mem_flatMap] at mem
  rcases mem with (((⟨d, hd, rfl⟩ | ⟨q, hq, part⟩) | ⟨r, hr, part⟩) | ⟨r, hr, part⟩) | ⟨k, hk, rfl⟩
  · exact mem_strings (mem_flatMap_of (fun _ => text_mem_strings) ((Table.mem_items _).mp hd))
  · have hq := (Table.mem_items _).mp hq
    obtain ⟨shorty, given⟩ := Option.isSome_iff_exists.mp (letters q hq)
    rcases List.mem_cons.mp part with rfl | part
    · rw [given]
      exact mem_strings (mem_flatMap_of (fun _ hq => shorty_mem_strings hq given) hq)
    · obtain ⟨d, hd, rfl⟩ := List.mem_map.mp part
      exact mem_types (mem_types_of_prototype hq d hd)
  · have hr := (Table.mem_items _).mp hr
    simp only [List.mem_cons, List.not_mem_nil, or_false] at part
    rcases part with rfl | rfl | rfl
    · exact mem_types (mem_flatMap_of (fun _ => field_owner_mem_types) hr)
    · exact mem_types (mem_flatMap_of (fun _ => field_type_mem_types) hr)
    · exact mem_strings (mem_flatMap_of (fun _ => field_name_mem_strings) hr)
  · have hr := (Table.mem_items _).mp hr
    simp only [List.mem_cons, List.not_mem_nil, or_false] at part
    rcases part with rfl | rfl | rfl
    · exact mem_types (mem_flatMap_of (fun _ => method_owner_mem_types) hr)
    · exact (Table.mem_items _).mpr (mem_flatMap_of (fun _ => prototype_mem_prototypes) hr)
    · exact mem_strings (mem_flatMap_of (fun _ => method_name_mem_strings) hr)
  · have hk := (Table.mem_items _).mp hk
    cases member : k.member with
    | field r => exact (Table.mem_items _).mpr (mem_flatMap_of (fun _ h => member_mem_fields h member) hk)
    | method r =>
      exact (Table.mem_items _).mpr (mem_flatMap_of (fun _ h => member_mem_methods h member) hk)

/-- A class asks for nothing that it does not mention; the default values that it is
written with ask for nothing. -/
theorem mentions_of_lookup {c : ClassDecl} (hc : c ∈ f.classes)
    (mem : m ∈ classLookups (poolOf f) c) : m ∈ f.mentions := by
  have named (own : m ∈ c.own) : m ∈ f.mentions :=
    mentions_of_class hc (c.mem_mentions_iff.mpr (Or.inl own))
  simp only [ClassDecl.own, List.mem_append] at named
  simp only [classLookups, List.mem_append, List.mem_flatMap] at mem
  rcases mem with ((((types | file) | fields) | methods) | ⟨a, ha, hm⟩) | ⟨v, hv, hm⟩
  · exact named (Or.inl (Or.inl (Or.inl types)))
  · exact named (Or.inl (Or.inl (Or.inr file)))
  · exact named (Or.inl (Or.inr fields))
  · exact named (Or.inr methods)
  · simp only [ClassDecl.everyAnnotation, List.mem_append, List.mem_flatMap] at ha
    rcases ha with (ha | ⟨x, hx, ha⟩) | ⟨x, hx, ha⟩
    · exact mentions_of_annotation hc ha m hm
    · exact mentions_of_field_annotation hc hx ha m hm
    · exact mentions_of_method_annotation hc hx ha m hm
  · exact mentions_of_class hc (initialValues_mentioned v hv hm)

/-- A list of types that is written has an offset. -/
theorem typeListOffset_found {ds : List Descriptor} (asked : ds ∈ askedLists (poolOf f) f)
    (some : ds ≠ []) :
    ∃ offset, (layoutOf f).typeListOffsets[ds.map (poolOf f).type]? = Option.some offset := by
  have listed : ds.map (poolOf f).type ∈ typeLists (poolOf f) f.classes := by
    rw [typeLists, mem_distinct, List.mem_filter]
    exact ⟨List.mem_map_of_mem asked, by simpa using some⟩
  have count : (layoutOf f).typeLists.offsets.toList.length
      = (typeLists (poolOf f) f.classes).length := by
    rw [Array.length_toList]
    exact (Run.size_ofItems _ _ _).trans (List.length_map _)
  have map : (layoutOf f).typeListOffsets = Std.HashMap.ofList
    ((typeLists (poolOf f) f.classes).zip (layoutOf f).typeLists.offsets.toList) := rfl
  rw [map, getElem?_ofList, ← Option.isSome_iff_exists, Option.isSome_iff_ne_none, ne_eq,
    lastFor_eq_none, not_not, List.map_fst_zip count.ge]
  exact listed

/-- So every question of the writer is answered. -/
theorem complete_poolOf (collected : Pool.ofFile f = .ok (poolOf f)) : Complete (poolOf f) f where
  used := by rw [encode_eq, collected]; rfl
  letters := by
    intro q hq
    exact (ofFile_eq_ok.mp collected).2.2 q ((Table.mem_items _).mp hq)
  found := by
    intro m mem
    rcases List.mem_append.mp mem with row | asked
    · exact answer_of_holds (holds_of_row (ofFile_eq_ok.mp collected).2.2 row)
    · obtain ⟨c, hc, asked⟩ := List.mem_flatMap.mp asked
      exact answer_of_holds (holds_of_mention (mentions_of_lookup hc asked))
  lists := by
    intro ds asked some
    exact typeListOffset_found asked some
  only := by
    intro p' rows alike
    exact encodeWith_alike rows alike

/-- When the tables of a file have been collected, every question that writing the file
asks them has an answer, and they hold exactly what the file reaches. -/
theorem tables_complete_exact {f : File} {p : Pool} (collected : Pool.ofFile f = .ok p) :
    Complete p f ∧ Exact p f := by
  obtain rfl : p = poolOf f := (ofFile_eq_ok.mp collected).1
  exact ⟨complete_poolOf collected, exact_poolOf f⟩

end Answers

/-- A class with two static fields, of which only the second has an initial value: an
annotation with a handle on the first. -/
def handleFile : File :=
  let first : FieldRef := ⟨⟨"LA;"⟩, "x", ⟨"I"⟩⟩
  let handle : Value := .methodHandle ⟨.staticGet, .field first⟩
  ⟨35, [⟨⟨"LA;"⟩, ⟨0⟩, some ⟨"LB;"⟩, [⟨"LC;"⟩], some "A.java", [],
    [⟨first, ⟨8⟩, none, []⟩,
      ⟨⟨⟨"LA;"⟩, "y", ⟨"LN;"⟩⟩, ⟨8⟩, some (.array [.nested ⟨"LN;"⟩ [("value", handle)], .string "s"]), []⟩],
    [⟨⟨⟨"LA;"⟩, "m", ⟨⟨"V"⟩, [⟨"J"⟩]⟩⟩, ⟨0x400⟩, [], [[⟨.runtime, ⟨"LN;"⟩, []⟩]], none⟩]⟩]⟩

/-- The file is small enough to be written. -/
theorem modest_handleFile : Modest handleFile := by
  constructor
  all_goals decide

theorem tables_complete_exact_handleFile : Pool.ofFile handleFile = .ok (poolOf handleFile)
    ∧ Complete (poolOf handleFile) handleFile ∧ Exact (poolOf handleFile) handleFile :=
  ⟨modest_handleFile.collected, tables_complete_exact modest_handleFile.collected⟩

end StubJar.Container
