import StubJar.Proofs.Container.Pools
import StubJar.Proofs.Container.Values

/-!
# The tables read back

Reading a container gives back the tables that it was written with
(`Legible.readTables_eq`): every row is read as the item that it was written
for. A row refers to tables that are read before it, so each table is read with
those before it in place.
-/

namespace StubJar.Container

open StubJar.Bytes StubJar.Dalvik StubJar.Order

/-! ## Strings -/

/-- A string is read where it stands. -/
theorem Stands.stringAt {bytes : List UInt8} {offset : Nat} {s : String}
    (stands : Stands bytes offset (encodeString s)) (short : (Text.units s).length < 2 ^ 32) :
    stringAt (Image.ofBytes bytes) offset = .ok s := by
  obtain ⟨front, rest, rfl, rfl⟩ := stands
  have nonzero : ∀ b ∈ Text.ModifiedUtf8.encode s, (b != 0) = true := by
    intro b hb
    have zero := Text.ModifiedUtf8.zero_not_mem_encode s
    simp only [bne_iff_ne, ne_eq]
    rintro rfl
    exact zero hb
  have taken : (Text.ModifiedUtf8.encode s ++ 0 :: rest).takeWhile (· != 0)
      = Text.ModifiedUtf8.encode s := by
    rw [List.takeWhile_append_of_pos nonzero]
    simp
  have dropped : (Text.ModifiedUtf8.encode s ++ 0 :: rest).dropWhile (· != 0) = 0 :: rest := by
    rw [List.dropWhile_append_of_pos nonzero]
    simp
  have form : encodeString s ++ rest
      = uleb (Text.units s).length ++ (Text.ModifiedUtf8.encode s ++ 0 :: rest) := by
    simp [encodeString]
  have read : Decoder.uleb (uleb (Text.units s).length ++ (Text.ModifiedUtf8.encode s ++ 0 :: rest))
      = .ok ((Text.units s).length, Text.ModifiedUtf8.encode s ++ 0 :: rest) :=
    Reads.uleb short _
  rw [Container.stringAt, Image.decodeAt, suffixes_ofBytes, form]
  simp only [bind, StateT.bind, read, Except.bind, get, getThe, MonadStateOf.get, StateT.get, pure,
    Except.pure, taken, dropped, Text.ModifiedUtf8.decode_encode, List.isEmpty_cons,
    bne_self_eq_false, Bool.false_eq_true, if_false]
  rfl

/-- A string takes a byte for each unit. -/
theorem length_units_encodeString (s : String) :
    (Text.units s).length ≤ (encodeString s).length := by
  have short := Text.ModifiedUtf8.length_units_le s
  simp only [encodeString, List.length_append]
  omega

namespace Legible

variable {f : File} {order : List Nat} {b : List UInt8}

/-- The strings are read off their rows. -/
theorem reads_strings (h : Legible f order b) :
    List.Forall₂ (Reads (stringRow (Image.ofBytes b)))
      ((layoutOf f).strings.offsets.toList.map (le 4)) (poolOf f).strings.items := by
  have mem : (layoutOf f).strings ∈ (layoutOf f).runs := by simp [Layout.runs]
  have found : List.Forall₂ (fun item offset => 0 < offset ∧ Stands b offset item)
      ((poolOf f).strings.items.map encodeString) (layoutOf f).strings.offsets.toList :=
    h.items_found mem
  rw [List.forall₂_map_left_iff] at found ⊢
  refine found.flip.imp fun offset s stands => ?_
  have short := h.length_lt stands.2
  have units := length_units_encodeString s
  exact (Reads.number (h.offset_lt stands.2)).bind_lift (stands.2.stringAt (by omega))

end Legible

/-! ## Rows that refer to other tables -/

section Rows

variable {ms : List Mention} {t : Tables}

/-- The index of a string is read back. -/
theorem reads_string_index (small : (Pool.ofMentions ms).Small) {s : String}
    (mem : s ∈ ms.flatMap Mention.strings) :
    Reads (Decoder.number 4) (le 4 ((Pool.ofMentions ms).string s)) ((Pool.ofMentions ms).string s) :=
  have index := Nat.lt_of_lt_of_le (Table.indexOf_lt _ mem) small.strings
  Reads.number (Nat.lt_trans index (by decide))

theorem reads_type_index (small : (Pool.ofMentions ms).Small) {d : Descriptor}
    (mem : d ∈ ms.flatMap Mention.types) :
    Reads (Decoder.number 2) (le 2 ((Pool.ofMentions ms).type d)) ((Pool.ofMentions ms).type d) :=
  have index := Nat.lt_of_lt_of_le (Table.indexOf_lt _ mem) small.types
  Reads.number (Nat.lt_trans index (by decide))

/-- The row of a type is read as the type. -/
theorem reads_typeRow (small : (Pool.ofMentions ms).Small)
    (strings : t.strings = (Pool.ofMentions ms).tables.strings) {d : Descriptor}
    (mem : d ∈ ms.flatMap Mention.types) :
    Reads (typeRow t) (le 4 ((Pool.ofMentions ms).string d.text)) d := by
  have text := mem_flatMap_of (fun _ => text_mem_strings) mem
  exact ((reads_string_index small text).bind_lift (string_entry strings text)).map Descriptor.mk

/-- That of a field is read as the field. -/
theorem reads_fieldRow (small : (Pool.ofMentions ms).Small)
    (strings : t.strings = (Pool.ofMentions ms).tables.strings)
    (types : t.types = (Pool.ofMentions ms).tables.types) {r : FieldRef}
    (mem : r ∈ ms.flatMap Mention.fields) :
    Reads (fieldRow t) (encodeFieldRow (Pool.ofMentions ms) r) r := by
  have owner := mem_flatMap_of (fun _ => field_owner_mem_types) mem
  have name := mem_flatMap_of (fun _ => field_name_mem_strings) mem
  have type := mem_flatMap_of (fun _ => field_type_mem_types) mem
  rw [encodeFieldRow, List.append_assoc]
  refine (reads_type_index small owner).bind ((reads_type_index small type).bind ?_)
  rw [← List.append_nil (le 4 _)]
  refine (reads_string_index small name).bind ?_
  refine Reads.lift_bind (type_entry types owner) (Reads.lift_bind (string_entry strings name) ?_)
  exact (Reads.lift (type_entry types type)).map fun type => FieldRef.mk r.owner r.name type

/-- That of a method is read as the method. -/
theorem reads_methodRow (small : (Pool.ofMentions ms).Small)
    (strings : t.strings = (Pool.ofMentions ms).tables.strings)
    (types : t.types = (Pool.ofMentions ms).tables.types)
    (prototypes : t.prototypes = (Pool.ofMentions ms).tables.prototypes) {r : MethodRef}
    (mem : r ∈ ms.flatMap Mention.methods) :
    Reads (methodRow t) (encodeMethodRow (Pool.ofMentions ms) r) r := by
  have owner := mem_flatMap_of (fun _ => method_owner_mem_types) mem
  have name := mem_flatMap_of (fun _ => method_name_mem_strings) mem
  have prototype := mem_flatMap_of (fun _ => prototype_mem_prototypes) mem
  have index := Nat.lt_of_lt_of_le (Table.indexOf_lt _ prototype) small.prototypes
  rw [encodeMethodRow, List.append_assoc]
  refine (reads_type_index small owner).bind ((Reads.number (Nat.lt_trans index (by decide))).bind ?_)
  rw [← List.append_nil (le 4 _)]
  refine (reads_string_index small name).bind ?_
  refine Reads.lift_bind (type_entry types owner) (Reads.lift_bind (string_entry strings name) ?_)
  exact (Reads.lift (prototype_entry prototypes prototype)).map fun q =>
    MethodRef.mk r.owner r.name q

/-- The kind of a handle is known by its code. -/
theorem ofCode?_kind (kind : HandleKind) : HandleKind.ofCode? kind.code = some kind := by
  cases kind <;> rfl

/-- A handle is read back if its kind goes with its member. -/
theorem reads_handleRow (small : (Pool.ofMentions ms).Small)
    (fields : t.fields = (Pool.ofMentions ms).tables.fields)
    (methods : t.methods = (Pool.ofMentions ms).tables.methods) {h : MethodHandle}
    (mem : h ∈ ms.flatMap Mention.handles) (agrees : h.Agrees) :
    Reads (handleRow t) (encodeHandleRow (Pool.ofMentions ms) h) h := by
  have some : (Pool.ofMentions ms).handles.size ≠ 0 := fun none => by
    have index := Table.indexOf_lt (handleKey (Pool.ofMentions ms)) mem
    change _ < (Pool.ofMentions ms).handles.size at index
    omega
  have narrow := small.members some
  have code : h.kind.code < 256 ^ 2 := by cases h.kind <;> decide
  rw [encodeHandleRow, List.append_assoc, List.append_assoc]
  refine (Reads.number code).bind ((Reads.number (by decide)).bind ?_)
  cases h with
  | mk kind member =>
    cases member with
    | field r =>
      have field := mem_flatMap_of (fun _ h => member_mem_fields h rfl) mem
      have index := Nat.lt_of_lt_of_le (Table.indexOf_lt (fieldKey (Pool.ofMentions ms)) field)
        narrow.1
      have accessor : kind.isFieldAccessor = true := agrees
      refine (Reads.number index).bind ?_
      rw [← List.append_nil (le 2 0)]
      refine (Reads.number (by decide)).bind ?_
      rw [ofCode?_kind]
      simp only [accessor, if_true]
      exact (Reads.lift (field_entry fields field)).map fun r => MethodHandle.mk kind (.field r)
    | method r =>
      have method := mem_flatMap_of (fun _ h => member_mem_methods h rfl) mem
      have index := Nat.lt_of_lt_of_le (Table.indexOf_lt (methodKey (Pool.ofMentions ms)) method)
        narrow.2
      have invoker : kind.isFieldAccessor = false := agrees
      refine (Reads.number index).bind ?_
      rw [← List.append_nil (le 2 0)]
      refine (Reads.number (by decide)).bind ?_
      rw [ofCode?_kind]
      simp only [invoker]
      exact (Reads.lift (method_entry methods method)).map fun r => MethodHandle.mk kind (.method r)

end Rows

/-! ## Everything in its place -/

/-- No table of a container that offsets can address has more items than the indices into
it have room for. -/
theorem Writes.small_at {f : File} {order : List Nat} {b bytes : List UInt8} (h : Writes f order b)
    (signed : Stands bytes 32 (signedOf f order)) (short : bytes.length < 2 ^ 32) :
    (poolOf f).Small := by
  have strings := h.table_at signed (k := 0) rfl rfl
  have fields := h.table_at signed (k := 3) rfl rfl
  have methods := h.table_at signed (k := 4) rfl rfl
  have handles := h.table_at signed (k := 6) rfl rfl
  have strings_bound := strings.1.bound
  have fields_bound := fields.1.bound
  have methods_bound := methods.1.bound
  have handles_bound := handles.1.bound
  rw [strings.2] at strings_bound
  rw [fields.2] at fields_bound
  rw [methods.2] at methods_bound
  rw [handles.2] at handles_bound
  simp only [ItemKind.rowSize] at strings_bound fields_bound methods_bound handles_bound
  obtain ⟨types, prototypes, members⟩ := checkSizes_eq_ok.mp h.sizes
  exact ⟨by unfold noIndex; omega, types, prototypes, by omega, by omega, by omega, members⟩

/-- A list of types that is not empty stands at its offset. -/
theorem Writes.typeList_at {f : File} {order : List Nat} {b bytes : List UInt8} (h : Writes f order b)
    (signed : Stands bytes 32 (signedOf f order)) {ds : List Descriptor} (some : ds ≠ [])
    (listed : ds.map (poolOf f).type ∈ typeLists (poolOf f) f.classes) :
    0 < (layoutOf f).typeListOffset (poolOf f) ds
      ∧ Stands bytes ((layoutOf f).typeListOffset (poolOf f) ds)
        (encodeTypeList (ds.map (poolOf f).type)) := by
  have run : (layoutOf f).typeLists ∈ (layoutOf f).runs := by simp [Layout.runs]
  have found : List.Forall₂ (fun item offset => 0 < offset ∧ Stands bytes offset item)
      ((typeLists (poolOf f) f.classes).map encodeTypeList)
      (layoutOf f).typeLists.offsets.toList := h.items_at signed run
  rw [List.forall₂_map_left_iff] at found
  obtain ⟨offset, last, positive, stands⟩ := lastFor_zip_of_mem found listed
  have map : (layoutOf f).typeListOffsets = Std.HashMap.ofList
    ((typeLists (poolOf f) f.classes).zip (layoutOf f).typeLists.offsets.toList) := rfl
  rw [Layout.typeListOffset, if_neg (by simpa using some), Std.HashMap.getD_eq_getD_getElem?, map,
    getElem?_ofList, last]
  exact ⟨positive, stands⟩

namespace Legible

variable {f : File} {order : List Nat} {b : List UInt8} {t : Tables}

theorem small_pool (h : Legible f order b) : (poolOf f).Small := h.small_at h.stands_signed h.small

/-- A list of types is read where it stands; the empty one stands nowhere. -/
theorem typesAt_eq (h : Legible f order b) (types : t.types = (poolOf f).tables.types)
    {ds : List Descriptor} (mentioned : ∀ d ∈ ds, d ∈ f.mentions.flatMap Mention.types)
    (listed : ds ≠ [] → ds.map (poolOf f).type ∈ typeLists (poolOf f) f.classes) :
    (layoutOf f).typeListOffset (poolOf f) ds < 2 ^ 32
      ∧ typesAt (Image.ofBytes b) t ((layoutOf f).typeListOffset (poolOf f) ds) = .ok ds := by
  rw [typesAt]
  by_cases none : ds = []
  · subst none
    exact ⟨Nat.two_pow_pos 32, rfl⟩
  · obtain ⟨positive, stands⟩ := h.typeList_at h.stands_signed none (listed none)
    refine ⟨h.offset_lt stands, stands.listAt positive ?_⟩
    have short := h.length_lt stands
    rw [encodeTypeList, List.length_map, List.flatMap_map]
    rw [encodeTypeList, List.length_append, List.length_map,
      length_flatMap_of fun _ _ => length_le 2 _, List.length_map] at short
    refine (Reads.number (by omega)).bind ?_
    have each : ∀ d ∈ ds, Reads (Decoder.number 2 >>= fun i => liftM (t.type i))
        (le 2 ((poolOf f).type d)) d := fun d hd =>
      (reads_type_index h.small_pool (mentioned d hd)).bind_lift (type_entry types (mentioned d hd))
    exact Reads.times_self each

/-- The parameters of a prototype are among the lists of types. -/
theorem parameters_listed {q : Prototype} (mem : q ∈ f.mentions.flatMap Mention.prototypes)
    (some : q.parameters ≠ []) :
    q.parameters.map (poolOf f).type ∈ typeLists (poolOf f) f.classes := by
  have item : q ∈ (poolOf f).prototypes.items := (Table.mem_items _).mpr mem
  rw [typeLists, mem_distinct, List.mem_filter]
  refine ⟨List.mem_map.mpr ⟨q.parameters, List.mem_append_left _
    (List.mem_map.mpr ⟨q, item, rfl⟩), rfl⟩, ?_⟩
  simpa using some

/-- The row of a prototype is read as the prototype. -/
theorem reads_prototypeRow (h : Legible f order b) (types : t.types = (poolOf f).tables.types)
    {q : Prototype} (mem : q ∈ f.mentions.flatMap Mention.prototypes) :
    Reads (prototypeRow (Image.ofBytes b) t) ((layoutOf f).prototypeRow (poolOf f) q) q := by
  obtain ⟨shorty, letters⟩ := Option.isSome_iff_exists.mp (h.letters q mem)
  have result : q.result ∈ f.mentions.flatMap Mention.types :=
    mem_flatMap_of (fun _ => result_mem_types) mem
  have result_index := Nat.lt_of_lt_of_le (Table.indexOf_lt (typeKey (poolOf f)) result)
    h.small_pool.types
  have parameters := h.typesAt_eq types
    (fun d hd => mem_flatMap_of (fun _ hq => parameter_mem_types hq hd) mem)
    (parameters_listed mem)
  rw [Layout.prototypeRow, letters, Option.getD_some, List.append_assoc]
  refine (reads_string_index h.small_pool
    (mem_flatMap_of (fun _ hq => shorty_mem_strings hq letters) mem)).bind ?_
  refine (Reads.number (Nat.lt_trans result_index (by decide))).bind ?_
  rw [← List.append_nil (le 4 _)]
  refine (Reads.number parameters.1).bind (Reads.lift_bind (type_entry types result) ?_)
  exact (Reads.lift parameters.2).map (Prototype.mk q.result)

/-! Only the entry of the handles gives handles. -/

/-- The code of handles is that of no other kind. -/
theorem mapCode_eq_handles (kind : ItemKind) :
    kind.mapCode = ItemKind.methodHandle.mapCode ↔ kind = .methodHandle := by
  cases kind <;> decide

theorem mapCode_lt (kind : ItemKind) : kind.mapCode < 256 ^ 2 := by cases kind <;> decide

/-- What an entry of the map gives. -/
def handlesOf (p : Pool) (e : MapEntry) : List MethodHandle :=
  if e.kind = .methodHandle then p.handles.items else []

/-- An entry of the map is read as the handles that it tells of. -/
theorem reads_mapEntry (h : Legible f order b) (fields : t.fields = (poolOf f).tables.fields)
    (methods : t.methods = (poolOf f).tables.methods) {e : MapEntry}
    (known : e.kind = .methodHandle → (layoutOf f).tables[6]? = some e) :
    Reads (mapEntry (Image.ofBytes b) t) e.encode (handlesOf (poolOf f) e) := by
  rw [MapEntry.encode, List.append_assoc, List.append_assoc, ← List.append_nil (le 4 e.offset)]
  refine (Reads.number (mapCode_lt e.kind)).bind ((Reads.number_mod 2 0).bind
    ((Reads.number_mod 4 e.size).bind ((Reads.number_mod 4 e.offset).bind ?_)))
  by_cases handles : e.kind = .methodHandle
  · have table := h.table (known handles) rfl
    have size : (poolOf f).handles.size = e.size :=
      congrArg MapEntry.size (Option.some.inj (known handles))
    have length := h.length_lt table.1
    have offset := Nat.lt_of_lt_of_le (h.offset_lt table.1) (by decide : 2 ^ 32 ≤ 256 ^ 4)
    rw [table.2, handles, ItemKind.rowSize, ← size] at length
    rw [if_pos ((mapCode_eq_handles _).mpr handles), handlesOf, if_pos handles,
      Nat.mod_eq_of_lt offset, ← size, Nat.mod_eq_of_lt (by omega)]
    refine Reads.lift (table.1.decodeAt (Reads.times_self fun handle mem => ?_))
    have mem : handle ∈ f.mentions.flatMap Mention.handles := (Table.mem_items _).mp mem
    exact reads_handleRow h.small_pool fields methods mem (h.agree handle mem)
  · rw [if_neg fun same => handles ((mapCode_eq_handles _).mp same), handlesOf, if_neg handles]
    exact Reads.pure []

/-- No run of data is one of handles. -/
theorem kind_ne_handles (f : File) : ∀ r ∈ (layoutOf f).runs, r.mapEntry.kind ≠ .methodHandle := by
  have kinds : (layoutOf f).runs.map Run.kind = [.typeList, .encodedArray, .annotationItem,
      .annotationSet, .annotationSetRefList, .annotationsDirectory, .code, .classData,
      .stringData] := by
    simp only [Layout.runs, AnnotationLayout.runs, List.cons_append, List.nil_append, List.map_cons,
      List.map_nil, List.cons.injEq, and_true]
    exact ⟨Run.kind_ofItems _ _ _, Run.kind_ofOptional _ _ _, Run.kind_ofItems _ _ _,
      Run.kind_ofItems _ _ _, Run.kind_ofItems _ _ _, Run.kind_ofOptional _ _ _,
      Run.kind_ofItems _ _ _, Run.kind_ofOptional _ _ _, Run.kind_ofItems _ _ _⟩
  intro r mem same
  have kind := List.mem_map_of_mem (f := Run.kind) mem
  rw [kinds, show r.kind = .methodHandle from same] at kind
  revert kind
  decide

/-- What comes to nothing can be left out. -/
theorem flatMap_filter_of {α β : Type} {keep : α → Bool} {g : α → List β} {items : List α}
    (nothing : ∀ a ∈ items, keep a = false → g a = []) :
    (items.filter keep).flatMap g = items.flatMap g := by
  induction items with
  | nil => rfl
  | cons a items ih =>
    have rest := ih fun b hb => nothing b (List.mem_cons_of_mem _ hb)
    rw [List.filter_cons, List.flatMap_cons]
    cases kept : keep a with
    | true => simp [rest]
    | false => simp [rest, nothing a List.mem_cons_self kept]

/-- What is said about handles is said by the last table. -/
theorem entry_of_handles {e : MapEntry}
    (mem : e ∈ (layoutOf f).tables ++ (layoutOf f).runs.map Run.mapEntry)
    (handles : e.kind = .methodHandle) : (layoutOf f).tables[6]? = some e := by
  have seven : (layoutOf f).tables = tableEntries headerSize
    (tableSizes (poolOf f) f.classes.length) := rfl
  rcases List.mem_append.mp mem with table | run
  · rw [seven] at table ⊢
    simp only [tableSizes, tableEntries, List.mem_cons, List.not_mem_nil, or_false] at table ⊢
    rcases table with rfl | rfl | rfl | rfl | rfl | rfl | rfl
    all_goals first | rfl | cases handles
  · obtain ⟨r, inside, rfl⟩ := List.mem_map.mp run
    exact absurd handles (kind_ne_handles f r inside)

/-- The map gives the handles once. -/
theorem handles_map (f : File) :
    ((layoutOf f).map.flatMap (handlesOf (poolOf f))) = (poolOf f).handles.items := by
  have tables : (layoutOf f).tables.flatMap (handlesOf (poolOf f)) = (poolOf f).handles.items :=
    List.append_nil _
  have runs : ((layoutOf f).runs.map Run.mapEntry).flatMap (handlesOf (poolOf f)) = [] := by
    rw [List.flatMap_map, List.flatMap_eq_nil_iff]
    exact fun r mem => if_neg (kind_ne_handles f r mem)
  have occurring : (((layoutOf f).tables ++ (layoutOf f).runs.map Run.mapEntry).filter
      (0 < ·.size)).flatMap (handlesOf (poolOf f)) = (poolOf f).handles.items := by
    rw [flatMap_filter_of, List.flatMap_append, tables, runs, List.append_nil]
    intro e mem empty
    rw [handlesOf]
    split
    · rename_i handles
      have size : (poolOf f).handles.size = e.size :=
        congrArg MapEntry.size (Option.some.inj (entry_of_handles mem handles))
      have none := of_decide_eq_false empty
      exact List.length_eq_zero_iff.mp (by rw [Table.size] at size; omega)
    · rfl
  have header : handlesOf (poolOf f) ⟨.header, 1, 0⟩ = [] := rfl
  have list : handlesOf (poolOf f) ⟨.mapList, 1, (layoutOf f).mapOffset⟩ = [] := rfl
  rw [Layout.map, List.cons_append, List.flatMap_cons, List.flatMap_append, occurring,
    List.flatMap_singleton, header, list, List.nil_append, List.append_nil]

/-- The map tells of handles once. -/
theorem entry_of_map {e : MapEntry} (mem : e ∈ (layoutOf f).map)
    (handles : e.kind = .methodHandle) : (layoutOf f).tables[6]? = some e := by
  rw [Layout.map, List.cons_append, List.mem_cons, List.mem_append, List.mem_singleton] at mem
  rcases mem with rfl | occurring | rfl
  · cases handles
  · exact entry_of_handles (List.mem_filter.mp occurring).1 handles
  · cases handles

/-- Reading gives back the tables that were written. -/
theorem readTables_eq (h : Legible f order b) :
    readTables b (Image.ofBytes b) = .ok (poolOf f).tables := by
  have strings := h.table (k := 0) rfl rfl
  have types := h.table (k := 1) rfl rfl
  have prototypes := h.table (k := 2) rfl rfl
  have fields := h.table (k := 3) rfl rfl
  have methods := h.table (k := 4) rfl rfl
  have small := h.small_pool
  rw [readTables]
  refine bind_eq_ok.mpr ⟨(poolOf f).tables.strings, ?_, ?_⟩
  · exact h.rowsAt_eq (k := 6) rfl rfl strings.1 strings.2 (Nat.succ_pos _) (Reads.times h.reads_strings)
  refine bind_eq_ok.mpr ⟨(poolOf f).tables.types, ?_, ?_⟩
  · exact h.rowsAt_eq (k := 8) rfl rfl types.1 types.2 (Nat.succ_pos _)
      (Reads.times_self fun d mem => reads_typeRow small rfl ((Table.mem_items _).mp mem))
  refine bind_eq_ok.mpr ⟨(poolOf f).tables.prototypes, ?_, ?_⟩
  · exact h.rowsAt_eq (k := 10) rfl rfl prototypes.1 prototypes.2 (Nat.succ_pos _)
      (Reads.times_self fun q mem => h.reads_prototypeRow rfl ((Table.mem_items _).mp mem))
  refine bind_eq_ok.mpr ⟨(poolOf f).tables.fields, ?_, ?_⟩
  · exact h.rowsAt_eq (k := 12) rfl rfl fields.1 fields.2 (Nat.succ_pos _)
      (Reads.times_self fun r mem => reads_fieldRow small rfl rfl ((Table.mem_items _).mp mem))
  refine bind_eq_ok.mpr ⟨(poolOf f).tables.methods, ?_, ?_⟩
  · exact h.rowsAt_eq (k := 14) rfl rfl methods.1 methods.2 (Nat.succ_pos _)
      (Reads.times_self fun r mem => reads_methodRow small rfl rfl rfl ((Table.mem_items _).mp mem))
  refine bind_eq_ok.mpr ⟨(layoutOf f).map.map (handlesOf (poolOf f)), ?_, ?_⟩
  · have map : wordAt b Header.map = (layoutOf f).mapOffset :=
      h.word (k := 5) rfl (h.offset_lt h.stands_map)
    have stands := h.stands_map
    rw [encodeMap] at stands
    have few : (layoutOf f).map.length < 256 ^ 4 := by
      have kept := List.length_filter_le (0 < ·.size)
        ((layoutOf f).tables ++ (layoutOf f).runs.map Run.mapEntry)
      have count : ((layoutOf f).tables ++ (layoutOf f).runs.map Run.mapEntry).length = 16 := rfl
      rw [Layout.map, List.length_append, List.length_cons, List.length_singleton]
      omega
    rw [map]
    refine stands.listAt (mapOffset_pos f) ?_
    exact (Reads.number few).bind (Reads.times_map fun e mem =>
      h.reads_mapEntry rfl rfl (entry_of_map mem))
  · rw [← List.flatMap_def, handles_map]
    rfl

/-- A container is opened with the tables that it was written with. -/
theorem openContainer_eq (h : Legible f order b) :
    openContainer b = .ok ⟨writtenVersion (poolOf f) f, b, Image.ofBytes b, (poolOf f).tables⟩ := by
  rw [openContainer]
  refine bind_eq_ok.mpr ⟨_, h.checkHeader_eq, ?_⟩
  exact bind_eq_ok.mpr ⟨_, h.readTables_eq, rfl⟩

end Legible

end StubJar.Container
