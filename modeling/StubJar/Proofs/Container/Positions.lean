import Mathlib.Algebra.Ring.Nat
import StubJar.Container.Pool
import StubJar.Container.Tables
import StubJar.Proofs.Dalvik.NormalForm
import StubJar.Proofs.Order.Tables
import StubJar.Proofs.Text.ModifiedUtf8

/-!
# Positions in the tables of a file

The tables made of a list of mentions hold what the mentions bring with them
and nothing else. What has a row in one table has the parts of its row in the
others: a member its class, its name and its type, a prototype its types and
its letters, a type its text.

Positions are those of the UTF-16 order. Types stand in the order of their
texts although they are sorted by the indices of these, and members in the
order of their texts one after another (`compare_fields`, `compare_methods`).

`Indexed p t ms` says that the tables `t` give back, under the index that `p`
assigns, whatever `ms` brings with it, and that the indices fit their width.
It is all that reading has to know about the tables of a written container.
-/

namespace StubJar.Container

open StubJar.Dalvik StubJar.Order StubJar.Text

/-! ## What mentions bring with them -/

section Mentions

variable {α β : Type} {m : Mention} {ms : List Mention}

/-- The text of a type is a string. -/
theorem text_mem_strings {d : Descriptor} (mem : d ∈ m.types) : d.text ∈ m.strings := by
  cases m <;> simp_all [Mention.strings, Mention.types, Mention.prototypes, Mention.fields,
    Mention.methods]
  all_goals grind

/-- The letters of a prototype are a string. -/
theorem shorty_mem_strings {q : Prototype} {s : String} (mem : q ∈ m.prototypes)
    (letters : q.shorty? = some s) : s ∈ m.strings := by
  cases m <;> simp_all [Mention.strings, Mention.prototypes, Mention.methods]
  all_goals grind

/-- The result of a prototype is a type. -/
theorem result_mem_types {q : Prototype} (mem : q ∈ m.prototypes) : q.result ∈ m.types := by
  cases m <;> simp_all [Mention.types, Mention.prototypes, Mention.methods]
  all_goals grind

theorem parameter_mem_types {q : Prototype} {d : Descriptor} (mem : q ∈ m.prototypes)
    (parameter : d ∈ q.parameters) : d ∈ m.types := by
  cases m <;> simp_all [Mention.types, Mention.prototypes, Mention.methods]
  all_goals grind

/-- The owner of a field is a type. -/
theorem field_owner_mem_types {f : FieldRef} (mem : f ∈ m.fields) : f.owner ∈ m.types := by
  cases m <;> simp_all [Mention.types, Mention.fields]
  grind

theorem field_type_mem_types {f : FieldRef} (mem : f ∈ m.fields) : f.type ∈ m.types := by
  cases m <;> simp_all [Mention.types, Mention.fields]
  grind

/-- Its name is a string. -/
theorem field_name_mem_strings {f : FieldRef} (mem : f ∈ m.fields) : f.name ∈ m.strings := by
  cases m <;> simp_all [Mention.strings, Mention.fields]
  grind

/-- The owner of a method is a type. -/
theorem method_owner_mem_types {r : MethodRef} (mem : r ∈ m.methods) : r.owner ∈ m.types := by
  cases m <;> simp_all [Mention.types, Mention.methods]
  grind

/-- Its name is a string. -/
theorem method_name_mem_strings {r : MethodRef} (mem : r ∈ m.methods) : r.name ∈ m.strings := by
  cases m <;> simp_all [Mention.strings, Mention.methods]
  grind

/-- What it takes and returns is a prototype. -/
theorem prototype_mem_prototypes {r : MethodRef} (mem : r ∈ m.methods) :
    r.prototype ∈ m.prototypes := by
  cases m <;> simp_all [Mention.prototypes, Mention.methods]
  grind

/-- The member of a handle is a field. -/
theorem member_mem_fields {h : MethodHandle} {f : FieldRef} (mem : h ∈ m.handles)
    (member : h.member = .field f) : f ∈ m.fields := by
  cases m <;> simp_all [Mention.handles, Mention.fields, HandleMember.fields]

/-- Or it is a method. -/
theorem member_mem_methods {h : MethodHandle} {r : MethodRef} (mem : h ∈ m.handles)
    (member : h.member = .method r) : r ∈ m.methods := by
  cases m <;> simp_all [Mention.handles, Mention.methods, HandleMember.methods]

/-- What holds for each mention holds for all of them. -/
theorem mem_flatMap_of {first : Mention → List α} {second : Mention → List β} {a : α} {b : β}
    (each : ∀ m : Mention, a ∈ first m → b ∈ second m) (mem : a ∈ ms.flatMap first) :
    b ∈ ms.flatMap second := by
  obtain ⟨m, hm, ha⟩ := List.mem_flatMap.mp mem
  exact List.mem_flatMap.mpr ⟨m, hm, each m ha⟩

end Mentions

/-! ## Positions compare as texts -/

section Positions

variable {ms : List Mention}

/-- The key under which a type is sorted. -/
def typeKey (p : Pool) (d : Descriptor) : Key := [p.string d.text]

/-- The key under which a prototype is sorted. -/
def prototypeKey (p : Pool) (q : Prototype) : Key := (q.result :: q.parameters).map p.type

/-- The key under which a field is sorted. -/
def fieldKey (p : Pool) (f : FieldRef) : Key := [p.type f.owner, p.string f.name, p.type f.type]

/-- The key under which a method is sorted. -/
def methodKey (p : Pool) (m : MethodRef) : Key :=
  [p.type m.owner, p.string m.name, p.prototype m.prototype]

/-- The key under which a handle is sorted. -/
def handleKey (p : Pool) (h : MethodHandle) : Key := [h.kind.code, p.member h.member]

/-- The indices of strings follow their units. -/
theorem string_follows {s t : String} (hs : s ∈ ms.flatMap Mention.strings)
    (ht : t ∈ ms.flatMap Mention.strings) : Follows (Pool.ofMentions ms).string units s t :=
  Table.follows units (fun _ _ _ _ => units_injective) hs ht

/-- A type is known by what it is sorted by. -/
theorem typeKey_injective {d e : Descriptor} (hd : d ∈ ms.flatMap Mention.types)
    (he : e ∈ ms.flatMap Mention.types)
    (same : typeKey (Pool.ofMentions ms) d = typeKey (Pool.ofMentions ms) e) : d = e := by
  have texts : d.text = e.text :=
    Table.indexOf_injective units (mem_flatMap_of (fun _ => text_mem_strings) hd)
      (mem_flatMap_of (fun _ => text_mem_strings) he) (List.cons.inj same).1
  cases d
  cases e
  exact congrArg Descriptor.mk texts

/-- The indices of types follow their texts. -/
theorem type_follows {d e : Descriptor} (hd : d ∈ ms.flatMap Mention.types)
    (he : e ∈ ms.flatMap Mention.types) :
    Follows (Pool.ofMentions ms).type (fun d => units d.text) d e := by
  have texts := string_follows (mem_flatMap_of (fun _ => text_mem_strings) hd)
    (mem_flatMap_of (fun _ => text_mem_strings) he)
  have position : Follows (Pool.ofMentions ms).type (typeKey (Pool.ofMentions ms)) d e :=
    Table.follows _ (fun _ ha _ hb => typeKey_injective ha hb) hd he
  constructor
  · rw [position.eq_iff, ← texts.eq_iff]
    simp [typeKey]
  · rw [position.le_iff, ← texts.keyLE]
    rfl

/-- The types of a prototype, the result first. -/
theorem mem_types_of_prototype {q : Prototype} (hq : q ∈ ms.flatMap Mention.prototypes) :
    ∀ d ∈ q.result :: q.parameters, d ∈ ms.flatMap Mention.types := by
  intro d hd
  rcases List.mem_cons.mp hd with rfl | parameter
  · exact mem_flatMap_of (fun _ => result_mem_types) hq
  · exact mem_flatMap_of (fun _ h => parameter_mem_types h parameter) hq

/-- Lists are known by what their items are known by. -/
theorem map_injective_on {α β : Type} {f : α → β} {as bs : List α}
    (injective : ∀ a ∈ as, ∀ b ∈ bs, f a = f b → a = b) (same : as.map f = bs.map f) : as = bs := by
  induction as generalizing bs with
  | nil => simpa using same.symm
  | cons a as ih =>
    cases bs with
    | nil => simp at same
    | cons b bs =>
      rw [List.map_cons, List.map_cons, List.cons.injEq] at same
      rw [injective a List.mem_cons_self b List.mem_cons_self same.1,
        ih (fun x hx y hy => injective x (List.mem_cons_of_mem _ hx) y (List.mem_cons_of_mem _ hy))
          same.2]

/-- A prototype is known by what it is sorted by. -/
theorem prototypeKey_injective {q r : Prototype} (hq : q ∈ ms.flatMap Mention.prototypes)
    (hr : r ∈ ms.flatMap Mention.prototypes)
    (same : prototypeKey (Pool.ofMentions ms) q = prototypeKey (Pool.ofMentions ms) r) : q = r := by
  have lists : q.result :: q.parameters = r.result :: r.parameters :=
    map_injective_on (fun d hd e he h => Table.indexOf_injective _ (mem_types_of_prototype hq d hd)
      (mem_types_of_prototype hr e he) h) same
  cases q
  cases r
  simpa using lists

theorem fieldKey_injective {f g : FieldRef} (hf : f ∈ ms.flatMap Mention.fields)
    (hg : g ∈ ms.flatMap Mention.fields)
    (same : fieldKey (Pool.ofMentions ms) f = fieldKey (Pool.ofMentions ms) g) : f = g := by
  simp only [fieldKey, List.cons.injEq, and_true] at same
  obtain ⟨owner, name, type⟩ := same
  have owner : f.owner = g.owner := Table.indexOf_injective _
    (mem_flatMap_of (fun _ => field_owner_mem_types) hf)
    (mem_flatMap_of (fun _ => field_owner_mem_types) hg) owner
  have name : f.name = g.name := Table.indexOf_injective _
    (mem_flatMap_of (fun _ => field_name_mem_strings) hf)
    (mem_flatMap_of (fun _ => field_name_mem_strings) hg) name
  have type : f.type = g.type := Table.indexOf_injective _
    (mem_flatMap_of (fun _ => field_type_mem_types) hf)
    (mem_flatMap_of (fun _ => field_type_mem_types) hg) type
  cases f
  cases g
  simp_all

theorem methodKey_injective {m n : MethodRef} (hm : m ∈ ms.flatMap Mention.methods)
    (hn : n ∈ ms.flatMap Mention.methods)
    (same : methodKey (Pool.ofMentions ms) m = methodKey (Pool.ofMentions ms) n) : m = n := by
  simp only [methodKey, List.cons.injEq, and_true] at same
  obtain ⟨owner, name, prototype⟩ := same
  have owner : m.owner = n.owner := Table.indexOf_injective _
    (mem_flatMap_of (fun _ => method_owner_mem_types) hm)
    (mem_flatMap_of (fun _ => method_owner_mem_types) hn) owner
  have name : m.name = n.name := Table.indexOf_injective _
    (mem_flatMap_of (fun _ => method_name_mem_strings) hm)
    (mem_flatMap_of (fun _ => method_name_mem_strings) hn) name
  have prototype : m.prototype = n.prototype := Table.indexOf_injective _
    (mem_flatMap_of (fun _ => prototype_mem_prototypes) hm)
    (mem_flatMap_of (fun _ => prototype_mem_prototypes) hn) prototype
  cases m
  cases n
  simp_all

/-! What a table is sorted by decides between two of its positions; written
out as texts: -/

/-- The indices of strings compare as their units do. -/
theorem compare_strings {s t : String} (hs : s ∈ ms.flatMap Mention.strings)
    (ht : t ∈ ms.flatMap Mention.strings) :
    keyLE [(Pool.ofMentions ms).string s] [(Pool.ofMentions ms).string t]
      = keyLE (units s) (units t) := (string_follows hs ht).keyLE

/-- Those of types compare as their texts do. -/
theorem compare_types {d e : Descriptor} (hd : d ∈ ms.flatMap Mention.types)
    (he : e ∈ ms.flatMap Mention.types) :
    keyLE [(Pool.ofMentions ms).type d] [(Pool.ofMentions ms).type e]
      = keyLE (units d.text) (units e.text) := (type_follows hd he).keyLE

/-- Those of prototypes compare as the texts of their types do. -/
theorem compare_prototypes {q r : Prototype} (hq : q ∈ ms.flatMap Mention.prototypes)
    (hr : r ∈ ms.flatMap Mention.prototypes) :
    keyLE [(Pool.ofMentions ms).prototype q] [(Pool.ofMentions ms).prototype r]
      = keysLE (keysOf q.texts) (keysOf r.texts) := by
  have position : Follows (Pool.ofMentions ms).prototype (prototypeKey (Pool.ofMentions ms)) q r :=
    Table.follows _ (fun _ ha _ hb => prototypeKey_injective ha hb) hq hr
  have types : keyLE (prototypeKey (Pool.ofMentions ms) q) (prototypeKey (Pool.ofMentions ms) r)
      = keysLE ((q.result :: q.parameters).map fun d => units d.text)
        ((r.result :: r.parameters).map fun d => units d.text) :=
    keyLE_positions fun d hd e he =>
      type_follows (mem_types_of_prototype hq d hd) (mem_types_of_prototype hr e he)
  rw [position.keyLE, types, keysOf, keysOf, Prototype.texts, Prototype.texts, List.map_map,
    List.map_map]
  rfl

/-- Those of fields compare as owner, name and type do. -/
theorem compare_fields {f g : FieldRef} (hf : f ∈ ms.flatMap Mention.fields)
    (hg : g ∈ ms.flatMap Mention.fields) :
    keyLE [(Pool.ofMentions ms).field f] [(Pool.ofMentions ms).field g]
      = keysLE (keysOf f.texts) (keysOf g.texts) := by
  have position : Follows (Pool.ofMentions ms).field (fieldKey (Pool.ofMentions ms)) f g :=
    Table.follows _ (fun _ ha _ hb => fieldKey_injective ha hb) hf hg
  have owner := type_follows (mem_flatMap_of (fun _ => field_owner_mem_types) hf)
    (mem_flatMap_of (fun _ => field_owner_mem_types) hg)
  have name := string_follows (mem_flatMap_of (fun _ => field_name_mem_strings) hf)
    (mem_flatMap_of (fun _ => field_name_mem_strings) hg)
  have type := type_follows (mem_flatMap_of (fun _ => field_type_mem_types) hf)
    (mem_flatMap_of (fun _ => field_type_mem_types) hg)
  rw [position.keyLE]
  exact owner.keyLE_cons (name.keyLE_cons (type.keyLE_cons rfl))

/-- Those of methods compare as owner, name and prototype do. -/
theorem compare_methods {m n : MethodRef} (hm : m ∈ ms.flatMap Mention.methods)
    (hn : n ∈ ms.flatMap Mention.methods) :
    keyLE [(Pool.ofMentions ms).method m] [(Pool.ofMentions ms).method n]
      = keysLE (keysOf m.texts) (keysOf n.texts) := by
  have position : Follows (Pool.ofMentions ms).method (methodKey (Pool.ofMentions ms)) m n :=
    Table.follows _ (fun _ ha _ hb => methodKey_injective ha hb) hm hn
  have owner := type_follows (mem_flatMap_of (fun _ => method_owner_mem_types) hm)
    (mem_flatMap_of (fun _ => method_owner_mem_types) hn)
  have name := string_follows (mem_flatMap_of (fun _ => method_name_mem_strings) hm)
    (mem_flatMap_of (fun _ => method_name_mem_strings) hn)
  rw [position.keyLE]
  exact owner.keyLE_cons (name.keyLE_cons (compare_prototypes
    (mem_flatMap_of (fun _ => prototype_mem_prototypes) hm)
    (mem_flatMap_of (fun _ => prototype_mem_prototypes) hn)))

end Positions

/-! ## Indices find what they were assigned to -/

section Indices

/-- The tables that reading makes of what was written. -/
def Pool.tables (p : Pool) : Tables :=
  ⟨p.strings.items.toArray, p.types.items.toArray, p.prototypes.items.toArray,
    p.fields.items.toArray, p.methods.items.toArray, p.handles.items.toArray⟩

/-- Tables that indices have room for. -/
structure Pool.Small (p : Pool) : Prop where
  strings : p.strings.size ≤ noIndex
  types : p.types.size ≤ 0xFFFF
  prototypes : p.prototypes.size ≤ 0xFFFF
  fields : p.fields.size ≤ 2 ^ 32
  methods : p.methods.size ≤ 2 ^ 32
  handles : p.handles.size ≤ 2 ^ 32
  members : p.handles.size ≠ 0 → p.fields.size ≤ 0x10000 ∧ p.methods.size ≤ 0x10000

/-- An entry of a table is the item at its index. -/
theorem entry_eq_ok {α : Type} {table : TableName} {items : Array α} {i : Nat} {a : α} :
    entry table items i = .ok a ↔ items[i]? = some a := by
  rw [entry]
  split
  · rename_i found
    rw [found, Except.ok.injEq, Option.some.injEq]
  · rename_i missing
    rw [missing]
    constructor
    · intro h
      cases h
    · intro h
      cases h

/-- An item is found at its index. -/
theorem entry_indexOf {α : Type} [BEq α] [LawfulBEq α] [Hashable α] (table : TableName)
    (key : α → Key) {items : List α} {a : α} (mem : a ∈ items) :
    entry table (Table.ofItems key items).items.toArray ((Table.ofItems key items).indexOf a)
      = .ok a := by
  rw [entry_eq_ok, List.getElem?_toArray, Table.getElem?_indexOf key mem]

variable {ms : List Mention} {t : Tables}

/-- A string is found at its index. -/
theorem string_entry (same : t.strings = (Pool.ofMentions ms).tables.strings) {s : String}
    (mem : s ∈ ms.flatMap Mention.strings) : t.string ((Pool.ofMentions ms).string s) = .ok s := by
  rw [Tables.string, same]
  exact entry_indexOf _ _ mem

theorem type_entry (same : t.types = (Pool.ofMentions ms).tables.types) {d : Descriptor}
    (mem : d ∈ ms.flatMap Mention.types) : t.type ((Pool.ofMentions ms).type d) = .ok d := by
  rw [Tables.type, same]
  exact entry_indexOf _ _ mem

theorem prototype_entry (same : t.prototypes = (Pool.ofMentions ms).tables.prototypes)
    {q : Prototype} (mem : q ∈ ms.flatMap Mention.prototypes) :
    t.prototype ((Pool.ofMentions ms).prototype q) = .ok q := by
  rw [Tables.prototype, same]
  exact entry_indexOf _ _ mem

theorem field_entry (same : t.fields = (Pool.ofMentions ms).tables.fields) {f : FieldRef}
    (mem : f ∈ ms.flatMap Mention.fields) : t.field ((Pool.ofMentions ms).field f) = .ok f := by
  rw [Tables.field, same]
  exact entry_indexOf _ _ mem

theorem method_entry (same : t.methods = (Pool.ofMentions ms).tables.methods) {m : MethodRef}
    (mem : m ∈ ms.flatMap Mention.methods) :
    t.method ((Pool.ofMentions ms).method m) = .ok m := by
  rw [Tables.method, same]
  exact entry_indexOf _ _ mem

theorem handle_entry (same : t.handles = (Pool.ofMentions ms).tables.handles) {h : MethodHandle}
    (mem : h ∈ ms.flatMap Mention.handles) :
    t.handle ((Pool.ofMentions ms).handle h) = .ok h := by
  rw [Tables.handle, same]
  exact entry_indexOf _ _ mem

/-- The thing has a row in the table of its kind. -/
def Pool.Holds (p : Pool) : Mention → Prop
  | .string s => s ∈ p.strings.items
  | .type d => d ∈ p.types.items
  | .prototype q => q ∈ p.prototypes.items
  | .field r => r ∈ p.fields.items
  | .method r => r ∈ p.methods.items
  | .handle h => h ∈ p.handles.items

/-- What is mentioned has a row. -/
theorem holds_of_mention {m : Mention} (mem : m ∈ ms) : (Pool.ofMentions ms).Holds m := by
  cases m <;> refine (Table.mem_items _).mpr (List.mem_flatMap.mpr ⟨_, mem, ?_⟩)
  all_goals exact List.mem_singleton_self _

/-- The tables find what the pool has assigned an index to. -/
structure Indexed (p : Pool) (t : Tables) (ms : List Mention) : Prop where
  string : ∀ s ∈ ms.flatMap Mention.strings, p.string s < noIndex ∧ t.string (p.string s) = .ok s
  type : ∀ d ∈ ms.flatMap Mention.types, p.type d < 0xFFFF ∧ t.type (p.type d) = .ok d
  prototype : ∀ q ∈ ms.flatMap Mention.prototypes,
    p.prototype q < 0xFFFF ∧ t.prototype (p.prototype q) = .ok q
  field : ∀ f ∈ ms.flatMap Mention.fields, p.field f < 2 ^ 32 ∧ t.field (p.field f) = .ok f
  method : ∀ m ∈ ms.flatMap Mention.methods, p.method m < 2 ^ 32 ∧ t.method (p.method m) = .ok m
  handle : ∀ h ∈ ms.flatMap Mention.handles, p.handle h < 2 ^ 32 ∧ t.handle (p.handle h) = .ok h

/-- So the tables answer as those that were written. -/
theorem indexed_tables (small : (Pool.ofMentions ms).Small) :
    Indexed (Pool.ofMentions ms) (Pool.ofMentions ms).tables ms where
  string _ mem := ⟨Nat.lt_of_lt_of_le (Table.indexOf_lt _ mem) small.strings, string_entry rfl mem⟩
  type _ mem := ⟨Nat.lt_of_lt_of_le (Table.indexOf_lt _ mem) small.types, type_entry rfl mem⟩
  prototype _ mem :=
    ⟨Nat.lt_of_lt_of_le (Table.indexOf_lt _ mem) small.prototypes, prototype_entry rfl mem⟩
  field _ mem := ⟨Nat.lt_of_lt_of_le (Table.indexOf_lt _ mem) small.fields, field_entry rfl mem⟩
  method _ mem := ⟨Nat.lt_of_lt_of_le (Table.indexOf_lt _ mem) small.methods, method_entry rfl mem⟩
  handle _ mem := ⟨Nat.lt_of_lt_of_le (Table.indexOf_lt _ mem) small.handles, handle_entry rfl mem⟩

end Indices

end StubJar.Container
