import StubJar.Proofs.Container.ClassRows
import StubJar.Proofs.Container.Sections

/-!
# Indices of two bytes

The rows of fields, methods and handles and the lists of types hold indices in two
bytes, which keep no more than their last 16 bits. `WholeIndices f order b` says that
nothing is lost: whatever is read where such an index stands is the index of the thing
itself. The places are found from the bytes alone, through the header, the map and the
rows.

The limits on the tables are what makes it so (`checkSizes_eq_ok`): types and prototypes have
no index above 65534, and members that handles refer to none above 65535.
-/

namespace StubJar.Container

open StubJar.Bytes StubJar.Dalvik StubJar.Order

/-- The number in the two bytes at an offset. -/
def halfAt (bytes : List UInt8) (offset : Nat) : Nat := ofLe ((bytes.drop offset).take 2)

/-- The number is the index of the item, all of it, and the item stands there. -/
structure IsIndex {α : Type} [BEq α] [Hashable α] (table : Table α) (a : α) (n : Nat) : Prop where
  whole : n = table.indexOf a
  stands : table.items[n]? = some a

/-- The number is the index of the member of a handle. -/
def IsMember (p : Pool) : HandleMember → Nat → Prop
  | .field r, n => IsIndex p.fields r n
  | .method r, n => IsIndex p.methods r n

/-- The types of a list as they are read where the list starts. -/
def ListsTypes (p : Pool) (b : List UInt8) (list : Nat) (types : List Descriptor) : Prop :=
  ∀ i d, types[i]? = some d → IsIndex p.types d (halfAt b (list + 4 + 2 * i))

/-- Every index of two bytes is read as a whole. -/
structure WholeIndices (f : File) (order : List Nat) (b : List UInt8) : Prop where
  fields : ∀ k r, (poolOf f).fields.items[k]? = some r →
    let row := wordAt b (Header.fields + 4) + 8 * k
    IsIndex (poolOf f).types r.owner (halfAt b row)
      ∧ IsIndex (poolOf f).types r.type (halfAt b (row + 2))
  methods : ∀ k r, (poolOf f).methods.items[k]? = some r →
    let row := wordAt b (Header.methods + 4) + 8 * k
    IsIndex (poolOf f).types r.owner (halfAt b row)
      ∧ IsIndex (poolOf f).prototypes r.prototype (halfAt b (row + 2))
  parameters : ∀ k q, (poolOf f).prototypes.items[k]? = some q →
    let row := wordAt b (Header.prototypes + 4) + 12 * k
    ListsTypes (poolOf f) b (wordAt b (row + 8)) q.parameters
  interfaces : ∀ k i c, order[k]? = some i → f.classes[i]? = some c →
    let row := wordAt b (Header.classes + 4) + 32 * k
    ListsTypes (poolOf f) b (wordAt b (row + 12)) c.interfaces
  /-- The header says nothing of handles; the map does. -/
  handles : ∀ k h, (poolOf f).handles.items[k]? = some h →
    ∃ row ∈ mapRows b, row.code = ItemKind.methodHandle.mapCode
      ∧ IsMember (poolOf f) h.member (halfAt b (row.offset + 8 * k + 4))

/-- What is mentioned has an index, and two bytes have room for it where the table is small. -/
theorem isIndex_of_stands {α : Type} [BEq α] [LawfulBEq α] [Hashable α] {key : α → Key}
    {items : List α} {a : α} {bytes : List UInt8} {offset : Nat} (mem : a ∈ items)
    (few : (Table.ofItems key items).size ≤ 0x10000)
    (stands : Stands bytes offset (le 2 ((Table.ofItems key items).indexOf a))) :
    IsIndex (Table.ofItems key items) a (halfAt bytes offset) := by
  have narrow := Nat.lt_of_lt_of_le (Table.indexOf_lt key mem) few
  have read : halfAt bytes offset = (Table.ofItems key items).indexOf a := stands.number narrow
  exact ⟨read, by rw [read, Table.getElem?_indexOf key mem]⟩

namespace Writes

variable {f : File} {order : List Nat} {b : List UInt8}

/-- The index of a type has 16 bits. -/
theorem few_types (h : Writes f order b) : (poolOf f).types.size ≤ 0x10000 :=
  Nat.le_trans (checkSizes_eq_ok.mp h.sizes).1 (by decide)

theorem few_prototypes (h : Writes f order b) : (poolOf f).prototypes.size ≤ 0x10000 :=
  Nat.le_trans (checkSizes_eq_ok.mp h.sizes).2.1 (by decide)

section Rows

variable (h : Writes f order b) (known : 35 ≤ f.version ∧ f.version ≤ 39) (small : b.length < 2 ^ 32)

include h known small

/-- A row of a table, found through the header. -/
theorem row_read {ι : Type} {form : ι → List UInt8} {items : List ι} {k j : Nat} {e : MapEntry} {i : ι}
    (told : k < 6) (entry : (layoutOf f).tables[k]? = some e)
    (piece : (tablePieces (poolOf f) (layoutOf f) f.classes order)[k]? = some (items.flatMap form))
    (width : ∀ i ∈ items, (form i).length = e.kind.rowSize) (wide : 0 < e.kind.rowSize)
    (found : items[j]? = some i) :
    Stands b (wordAt b (Header.strings + 8 * k + 4) + e.kind.rowSize * j) (form i) := by
  have signed := h.signed_known known
  obtain ⟨stands, length⟩ := h.table_at signed entry piece
  have bound := stands.bound
  have some : 0 < e.size := by
    have inside := (List.getElem?_eq_some_iff.mp found).1
    rw [length_flatMap_of width] at length
    exact Nat.pos_of_mul_pos_right (length ▸ Nat.mul_pos (by omega) wide)
  have word : (headerWords (layoutOf f) (sizeOf f))[7 + 2 * k]?
      = Option.some (if 0 < e.size then e.offset else 0) := by
    -- Six words come before those of the tables.
    obtain rfl | rfl | rfl | rfl | rfl | rfl : k = 0 ∨ k = 1 ∨ k = 2 ∨ k = 3 ∨ k = 4 ∨ k = 5 := by
      omega
    all_goals
      obtain rfl := Option.some.inj entry
      rfl
  rw [if_pos some] at word
  have start := word_at signed word (by omega)
  rw [show 32 + 4 * (7 + 2 * k) = Header.strings + 8 * k + 4 by simp only [Header.strings]; omega]
    at start
  rw [start]
  exact stands.row_of_mem width found

/-- The row of a field is read as its indices. -/
theorem fields_read {k : Nat} {r : FieldRef} (found : (poolOf f).fields.items[k]? = some r) :
    let row := wordAt b (Header.fields + 4) + 8 * k
    IsIndex (poolOf f).types r.owner (halfAt b row)
      ∧ IsIndex (poolOf f).types r.type (halfAt b (row + 2)) := by
  have mentioned := (Table.mem_items _).mp (List.mem_of_getElem? found)
  have row := h.row_read known small (k := 3) (by decide) rfl rfl
    (fun _ _ => by simp [encodeFieldRow, ItemKind.rowSize]) (Nat.succ_pos _) found
  rw [encodeFieldRow] at row
  constructor
  · exact isIndex_of_stands (mem_flatMap_of (fun _ => field_owner_mem_types) mentioned) h.few_types
      row.left.left
  · exact isIndex_of_stands (mem_flatMap_of (fun _ => field_type_mem_types) mentioned) h.few_types
      row.left.right

theorem methods_read {k : Nat} {r : MethodRef} (found : (poolOf f).methods.items[k]? = some r) :
    let row := wordAt b (Header.methods + 4) + 8 * k
    IsIndex (poolOf f).types r.owner (halfAt b row)
      ∧ IsIndex (poolOf f).prototypes r.prototype (halfAt b (row + 2)) := by
  have mentioned := (Table.mem_items _).mp (List.mem_of_getElem? found)
  have row := h.row_read known small (k := 4) (by decide) rfl rfl
    (fun _ _ => by simp [encodeMethodRow, ItemKind.rowSize]) (Nat.succ_pos _) found
  rw [encodeMethodRow] at row
  constructor
  · exact isIndex_of_stands (mem_flatMap_of (fun _ => method_owner_mem_types) mentioned) h.few_types
      row.left.left
  · exact isIndex_of_stands (mem_flatMap_of (fun _ => prototype_mem_prototypes) mentioned)
      h.few_prototypes
      row.left.right

/-- A list of types, found through the offset in its row. -/
theorem types_read {types : List Descriptor} {offset : Nat}
    (mentioned : ∀ d ∈ types, d ∈ f.mentions.flatMap Mention.types)
    (listed : types ≠ [] → types.map (poolOf f).type ∈ typeLists (poolOf f) f.classes)
    (told : Stands b offset (le 4 ((layoutOf f).typeListOffset (poolOf f) types))) :
    ListsTypes (poolOf f) b (wordAt b offset) types := by
  intro i d found
  have mem := List.mem_of_getElem? found
  have some : types ≠ [] := List.ne_nil_of_mem mem
  have signed := h.signed_known known
  obtain ⟨_, stands⟩ := h.typeList_at signed some (listed some)
  have bound := stands.bound
  rw [told.wordAt (by omega)]
  rw [encodeTypeList] at stands
  have index := stands.right.row (length_le 2) (k := i) (i := (poolOf f).type d)
    (by rw [List.getElem?_map, found]; rfl)
  rw [length_le] at index
  exact isIndex_of_stands (mentioned d mem) h.few_types index

/-- The parameters of a prototype are read as their indices. -/
theorem parameters_read {k : Nat} {q : Prototype}
    (found : (poolOf f).prototypes.items[k]? = some q) :
    let row := wordAt b (Header.prototypes + 4) + 12 * k
    ListsTypes (poolOf f) b (wordAt b (row + 8)) q.parameters := by
  have mentioned := (Table.mem_items _).mp (List.mem_of_getElem? found)
  have row := h.row_read known small (k := 2) (by decide) rfl rfl
    (fun _ _ => by simp [Layout.prototypeRow, ItemKind.rowSize]) (Nat.succ_pos _) found
  rw [Layout.prototypeRow] at row
  have told := row.right
  rw [List.length_append, length_le, length_le] at told
  exact h.types_read known small (fun d hd => mem_flatMap_of (fun _ hq => parameter_mem_types hq hd) mentioned)
    (fun some => Legible.parameters_listed mentioned some) told

/-- So are the interfaces of a class. -/
theorem interfaces_read {k i : Nat} {c : ClassDecl} (found : order[k]? = some i)
    (stands : f.classes[i]? = some c) :
    let row := wordAt b (Header.classes + 4) + 32 * k
    ListsTypes (poolOf f) b (wordAt b (row + 12)) c.interfaces := by
  have inside := List.mem_of_getElem? stands
  have width : ∀ i ∈ order, (f.classes[i]?.elim [] ((layoutOf f).classRow (poolOf f) i)).length = 32 := by
    intro i hi
    rw [List.getElem?_eq_getElem (List.mem_range.mp (h.perm.mem_iff.mp hi))]
    simp [Layout.classRow]
  have row := h.row_read known small (k := 5) (by decide) rfl rfl width (Nat.succ_pos _) found
  rw [stands, Option.elim_some, Layout.classRow] at row
  have told := row.left.left.left.left.right
  simp only [List.length_append, length_le] at told
  exact h.types_read known small
    (fun d hd => type_mentioned inside (List.mem_cons_of_mem _ (List.mem_append_right _ hd)))
    (fun some => Legible.interfaces_listed inside some) told

/-- The row of a handle is read as the index of its member. -/
theorem handles_read {k : Nat} {handle : MethodHandle}
    (found : (poolOf f).handles.items[k]? = some handle) :
    ∃ row ∈ mapRows b, row.code = ItemKind.methodHandle.mapCode
      ∧ IsMember (poolOf f) handle.member (halfAt b (row.offset + 8 * k + 4)) := by
  have signed := h.signed_known known
  have some : 0 < (poolOf f).handles.size :=
    Nat.zero_lt_of_lt (List.getElem?_eq_some_iff.mp found).1
  obtain ⟨few_fields, few_methods⟩ := (checkSizes_eq_ok.mp h.sizes).2.2 (Nat.ne_of_gt some)
  obtain ⟨e, entry, kind, size⟩ : ∃ e, (layoutOf f).tables[6]? = Option.some e ∧ e.kind = .methodHandle
      ∧ e.size = (poolOf f).handles.size := ⟨_, rfl, rfl, rfl⟩
  have listed : e ∈ (layoutOf f).map := by
    have inside := List.mem_append_left ((layoutOf f).runs.map Run.mapEntry) (List.mem_of_getElem? entry)
    refine List.mem_append_left _ (List.mem_cons_of_mem _ (List.mem_filter.mpr ⟨inside, ?_⟩))
    simpa [size] using some
  refine ⟨e.row, ?_, by rw [MapEntry.row, kind], ?_⟩
  · rw [h.map_sections] at listed
    obtain ⟨part, inside, rfl⟩ := List.mem_map.mp listed
    rw [h.map_rows known small]
    exact List.mem_map_of_mem inside
  have table : Stands b e.offset ((poolOf f).handles.items.flatMap (encodeHandleRow (poolOf f))) :=
    (h.table_at signed entry rfl).1
  have width : ∀ k, (encodeHandleRow (poolOf f) k).length = 8 := fun _ => by simp [encodeHandleRow]
  have row := table.row width found
  rw [encodeHandleRow] at row
  have index := row.left.right
  rw [List.length_append, length_le, length_le] at index
  have mentioned := (Table.mem_items _).mp (List.mem_of_getElem? found)
  cases member : handle.member with
  | field r =>
    rw [member] at index
    exact isIndex_of_stands (mem_flatMap_of (fun _ hh => member_mem_fields hh member) mentioned)
      few_fields index
  | method r =>
    rw [member] at index
    exact isIndex_of_stands (mem_flatMap_of (fun _ hh => member_mem_methods hh member) mentioned)
      few_methods index

/-- No index in a container is cut off. -/
theorem wholeIndices : WholeIndices f order b where
  fields := fun _ _ => h.fields_read known small
  methods := fun _ _ => h.methods_read known small
  parameters := fun _ _ => h.parameters_read known small
  interfaces := fun _ _ _ => h.interfaces_read known small
  handles := fun _ _ => h.handles_read known small

end Rows

end Writes

end StubJar.Container
