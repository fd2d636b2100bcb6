import StubJar.Proofs.Container.Settled

/-!
# The layout of a written container

A container is made of sections, one for each kind of item: the header, the tables, the
items that the tables point at, and the map. `Consistent f order b` says how they lie in
the bytes and what the header and the map tell about them: how long the parts are, that
all items stand at their offsets, apart from each other and aligned, that the counts and
offsets in the header and in the map are those of the sections, and that the header is
sealed by the checksum and the signature of what follows.

The header, the tables, the runs of items and the map are batches one behind the other
(`Writes.bytes_batches`), so all sections are placed by one rule from offset zero on
(`Writes.sections_batches`). The header and the map are filled in from the tables and the
runs of the layout, which are the sections of these batches (`Writes.tables_told`,
`Writes.map_sections`).
-/

namespace StubJar.Container

open StubJar.Bytes StubJar.Dalvik StubJar.Digest StubJar.Order

/-! ## The sections of a file -/

section Sections

variable (f : File) (order : List Nat)

/-- The header. -/
def headerOf : List UInt8 := sealOf f order ++ encodeSizes (layoutOf f) (sizeOf f)

/-- The annotations of each set in their order. -/
def annotationGroups : List (List Annotation) :=
  (owned f).map fun (_, annotations) => orderedSet (poolOf f) annotations

/-- The items that the tables point at. -/
def itemBatches : List Batch :=
  [⟨.typeList, (typeLists (poolOf f) f.classes).map encodeTypeList⟩,
    ⟨.encodedArray, (placedOf f).filterMap fun c =>
      let values := c.members.initialValues
      if values.isEmpty then none else some (encodeArray (poolOf f) values)⟩,
    ⟨.annotationItem, (annotationGroups f).flatten.map (encodeAnnotationItem (poolOf f))⟩,
    ⟨.annotationSet,
      (offsetsByGroup (annotationGroups f) (layoutOf f).annotations.items.offsets.toList).map
        offsetList⟩,
    ⟨.annotationSetRefList, (parameterListsOf f).map Prod.snd⟩,
    ⟨.annotationsDirectory,
      (placedOf f).filterMap (AnnotationLayout.directory? (setOffsetsOf f) (listOffsetsOf f))⟩,
    ⟨.code, (bodies (placedOf f)).map fun (_, _, body) => encodeBody body⟩,
    ⟨.classData, (placedOf f).filterMap fun c => encodeClassData? (codeOffsetsOf f) c.members⟩,
    ⟨.stringData, (poolOf f).strings.items.map encodeString⟩]

/-- The map. -/
def mapBatch : Batch := ⟨.mapList, [encodeMap (layoutOf f).map]⟩

/-- The items behind the tables. -/
def dataBatches : List Batch := itemBatches f ++ [mapBatch f]

/-- All items of the container. -/
def batchesOf : List Batch :=
  ⟨.header, [headerOf f order]⟩ :: (tableBatches f order ++ dataBatches f)

/-- The tables, behind the header. -/
def tableSections : List Section := sectionsFrom headerSize (tableBatches f order)

/-- The items behind the tables, the map last. -/
def dataSections : List Section := sectionsFrom (layoutOf f).dataStart (dataBatches f)

/-- All sections. -/
def sectionsOf : List Section :=
  ⟨.header, [⟨0, headerOf f order⟩]⟩ :: (tableSections f order ++ dataSections f)

end Sections

/-- The kinds of items behind the tables that start at multiples of four. -/
def wordKinds : List ItemKind :=
  [.typeList, .annotationSet, .annotationSetRefList, .annotationsDirectory, .code, .mapList]

/-- A row of the map: the code of a kind, how many items there are, and where the first of
them is. -/
structure MapRow where
  code : Nat
  size : Nat
  offset : Nat

/-- What an entry tells. -/
def MapEntry.row (e : MapEntry) : MapRow := ⟨e.kind.mapCode, e.size, e.offset⟩

/-- The rows of the map, read where the header says that the map is. -/
def mapRows (bytes : List UInt8) : List MapRow :=
  let map := wordAt bytes Header.map
  (List.range (wordAt bytes map)).map fun i =>
    let row := map + 4 + 12 * i
    ⟨ofLe ((bytes.drop row).take 2), wordAt bytes (row + 4), wordAt bytes (row + 8)⟩

/-- The section of data, its size in bytes. No reader asks for it. -/
def Header.data : Nat := 104

/-- The parts of a container fit together. -/
structure Consistent (f : File) (order : List Nat) (b : List UInt8) : Prop where
  /-- The bytes are the header, the tables and the data. -/
  parts : b = headerOf f order ++ bytesFrom headerSize (tableBatches f order)
    ++ bytesFrom (layoutOf f).dataStart (dataBatches f)
  header_length : (headerOf f order).length = headerSize
  tables_length : (headerOf f order ++ bytesFrom headerSize (tableBatches f order)).length
    = (layoutOf f).dataStart
  size : wordAt b Header.fileSize = b.length
  /-- The header tells of each table how many rows there are and where the first is. -/
  tables : List.Forall₂
    (fun field (s : Section) => wordAt b field = s.blocks.length ∧ wordAt b (field + 4) = s.first)
    [Header.strings, Header.types, Header.prototypes, Header.fields, Header.methods, Header.classes]
    ((tableSections f order).take 6)
  data : wordAt b Header.data = b.length - (layoutOf f).dataStart
    ∧ wordAt b (Header.data + 4) = (layoutOf f).dataStart
  stands : ∀ s ∈ sectionsOf f order, ∀ k ∈ s.blocks, Stands b k.offset k.bytes
  filled : ∀ s ∈ sectionsOf f order, ∀ k ∈ s.blocks, k.bytes ≠ []
  apart : ((sectionsOf f order).flatMap Section.blocks).Pairwise fun k l => k.stop ≤ l.offset
  inside : ∀ s ∈ dataSections f, ∀ k ∈ s.blocks,
    (layoutOf f).dataStart ≤ k.offset ∧ k.stop ≤ b.length
  aligned : ∀ s ∈ dataSections f, s.kind ∈ wordKinds → ∀ k ∈ s.blocks, 4 ∣ k.offset
  /-- The map has a row for each section that is not empty. -/
  map : mapRows b = ((sectionsOf f order).filter (0 < ·.blocks.length)).map (·.entry.row)
  codes : ((mapRows b).map MapRow.code).Nodup
  offsets : ((mapRows b).map MapRow.offset).Pairwise (· < ·)
  checksum : wordAt b Header.checksum = adler32 (b.drop Header.signature)
  signature : (b.drop Header.signature).take 20 = Sha1.digest (b.drop Header.fileSize)

/-! ## No item is empty -/

theorem offsetList_ne_nil (offsets : List Nat) : offsetList offsets ≠ [] :=
  List.append_ne_nil_of_left_ne_nil (List.cons_ne_nil _ _) _

/-- No item of the data is empty. -/
theorem items_filled (f : File) : ∀ p ∈ dataBatches f, ∀ item ∈ p.items, item ≠ [] := by
  intro p mem
  -- One case for each kind, in the order in which the kinds stand.
  simp only [dataBatches, itemBatches, List.cons_append, List.nil_append, List.mem_cons,
    List.not_mem_nil, or_false] at mem
  rcases mem with rfl | rfl | rfl | rfl | rfl | rfl | rfl | rfl | rfl | rfl
  all_goals simp only [mapBatch, List.forall_mem_map, List.mem_filterMap, List.mem_singleton]
  · exact fun _ _ => List.append_ne_nil_of_left_ne_nil (List.cons_ne_nil _ _) _
  · rintro item ⟨c, _, made⟩
    split at made
    · cases made
    · rw [← Option.some.inj made]
      exact List.append_ne_nil_of_left_ne_nil (uleb_ne_nil _) _
  · exact fun _ _ => List.cons_ne_nil _ _
  · exact fun _ _ => offsetList_ne_nil _
  · rintro ⟨key, item⟩ mem
    obtain ⟨c, _, i, m, _, made⟩ := Legible.mem_parameterLists.mp mem
    obtain ⟨_, _, rfl⟩ := Legible.parameterList_eq_some.mp made
    exact offsetList_ne_nil _
  · rintro item ⟨c, _, made⟩
    rw [AnnotationLayout.directory?] at made
    split at made
    · cases made
    · rw [← Option.some.inj made]
      simp [le]
  · exact fun _ _ => by simp [encodeBody, le]
  · rintro item ⟨c, _, made⟩
    rw [encodeClassData?] at made
    split at made
    · cases made
    · rw [← Option.some.inj made]
      simp [uleb_ne_nil]
  · exact fun _ _ => by simp [encodeString]
  · rintro item rfl
    exact List.append_ne_nil_of_left_ne_nil (List.cons_ne_nil _ _) _

/-! ## The bytes -/

/-- The runs of a layout hold its items. -/
theorem holding_runs (f : File) :
    Holding (layoutOf f).dataStart (layoutOf f).runs (itemBatches f) :=
  ⟨rfl, Run.fst_ofOptional _ _ _ _, rfl, rfl, rfl, Run.fst_ofOptional _ _ _ _, rfl,
    Run.fst_ofOptional _ _ _ _, rfl, trivial⟩

/-- Behind the runs comes the map. -/
theorem runs_stop (f : File) : (layoutOf f).dataStart
    + (bytesFrom (layoutOf f).dataStart (itemBatches f)).length = (layoutOf f).strings.stop := by
  rw [← (holding_runs f).bytes, runs_length]

/-- The data is made of them. -/
theorem data_batches (f : File) :
    (layoutOf f).data = bytesFrom (layoutOf f).dataStart (dataBatches f) := by
  rw [dataBatches, bytesFrom_append, runs_stop, ← (holding_runs f).bytes, Layout.data,
    List.append_assoc]
  simp [bytesFrom, mapBatch, Batch.bytes, filledFrom, ItemKind.alignment]

/-- The header has 112 bytes. -/
theorem length_headerOf {f : File} (order : List Nat) (known : 35 ≤ f.version ∧ f.version ≤ 39) :
    (headerOf f order).length = headerSize := by
  rw [headerOf, List.length_append, length_sealOf order known, encodeSizes_eq,
    length_flatMap_of fun _ _ => length_le 4 _, length_headerWords (layoutOf f) (sizeOf f) rfl]
  rfl

theorem header_bytes (item : List UInt8) : Batch.bytes ⟨.header, [item]⟩ 0 = item := by
  simp [Batch.bytes, filledFrom, ItemKind.alignment, padding]

theorem header_blocks (item : List UInt8) : Batch.blocks ⟨.header, [item]⟩ 0 = [⟨0, item⟩] := by
  simp [Batch.blocks, blocksFrom, ItemKind.alignment, padding]

theorem header_stop {f : File} (order : List Nat) (known : 35 ≤ f.version ∧ f.version ≤ 39) :
    Batch.stop ⟨.header, [headerOf f order]⟩ 0 = headerSize := by
  rw [Batch.stop, header_bytes, length_headerOf order known, Nat.zero_add]

namespace Writes

variable {f : File} {order : List Nat} {b : List UInt8}

/-- The tables are made of their rows. -/
theorem tables_batches (h : Writes f order b) :
    (tablePieces (poolOf f) (layoutOf f) f.classes order).flatten
      = bytesFrom headerSize (tableBatches f order) := by
  rw [bytesFrom_tables h.tabular (by decide), tablePieces_eq]

/-- A container is its header, its tables and its data. -/
theorem parts (h : Writes f order b) : b = headerOf f order
    ++ bytesFrom headerSize (tableBatches f order)
    ++ bytesFrom (layoutOf f).dataStart (dataBatches f) := by
  have bytes := h.bytes
  rw [stamp_eq, signedOf, encodeTables_eq, h.tables_batches, data_batches, ← List.append_assoc,
    ← List.append_assoc] at bytes
  exact bytes

/-- The data starts where the tables end. -/
theorem dataStart_batches (h : Writes f order b) : (layoutOf f).dataStart
    = headerSize + (bytesFrom headerSize (tableBatches f order)).length := by
  rw [h.dataStart_eq, h.tables_batches]

variable (known : 35 ≤ f.version ∧ f.version ≤ 39)
include known

/-- All parts are batches one behind the other. -/
theorem bytes_batches (h : Writes f order b) : b = bytesFrom 0 (batchesOf f order) := by
  rw [batchesOf, bytesFrom, header_stop order known, header_bytes, bytesFrom_append,
    ← h.dataStart_batches, ← List.append_assoc]
  exact h.parts

/-- So the sections are those of all batches. -/
theorem sections_batches (h : Writes f order b) :
    sectionsOf f order = sectionsFrom 0 (batchesOf f order) := by
  rw [batchesOf, sectionsFrom, header_stop order known, sectionsFrom_append, ← h.dataStart_batches,
    header_blocks]
  rfl

/-- No item of a container is empty. -/
theorem batches_filled (h : Writes f order b) :
    ∀ p ∈ batchesOf f order, ∀ item ∈ p.items, item ≠ [] := by
  intro p mem
  rcases List.mem_cons.mp mem with rfl | behind
  · intro item hitem
    rw [List.mem_singleton.mp hitem]
    apply List.ne_nil_of_length_pos
    rw [length_headerOf order known]
    decide
  rcases List.mem_append.mp behind with table | data
  · intro row hrow
    apply List.ne_nil_of_length_pos
    rw [(h.tabular p table).rows row hrow]
    exact (h.tabular p table).kind
  · exact items_filled f p data

/-- Nor is any block. -/
theorem sections_filled (h : Writes f order b) :
    ∀ s ∈ sectionsOf f order, ∀ k ∈ s.blocks, k.bytes ≠ [] := by
  intro s hs k hk
  rw [h.sections_batches known] at hs
  obtain ⟨p, hp, _, items⟩ := mem_sectionsFrom hs
  exact h.batches_filled known p hp k.bytes (items ▸ List.mem_map_of_mem hk)

/-- Blocks do not overlap. -/
theorem sections_apart (h : Writes f order b) :
    ((sectionsOf f order).flatMap Section.blocks).Pairwise fun k l => k.stop ≤ l.offset := by
  rw [h.sections_batches known]
  exact apart_sectionsFrom

/-- Each block stands where its section says. -/
theorem sections_stand (h : Writes f order b) :
    ∀ s ∈ sectionsOf f order, ∀ k ∈ s.blocks, Stands b k.offset k.bytes := by
  rw [h.sections_batches known]
  apply stands_sectionsFrom
  rw [← h.bytes_batches known]
  exact Stands.whole b

/-- What is said of a section fits its width. -/
theorem entry_small (h : Writes f order b) (small : b.length < 2 ^ 32) :
    ∀ s ∈ sectionsOf f order, s.blocks.length < 2 ^ 32 ∧ s.first < 2 ^ 32 := by
  intro s hs
  have stands := h.sections_stand known s hs
  constructor
  · rw [h.sections_batches known] at hs
    have count := length_le_bytesFrom (h.batches_filled known) s hs
    rw [← h.bytes_batches known] at count
    omega
  · rw [Section.first]
    cases found : s.blocks with
    | nil => exact Nat.two_pow_pos 32
    | cons k blocks =>
      have bound := (stands k (found ▸ List.mem_cons_self)).bound
      simp only [List.head?_cons, Option.map_some, Option.getD_some]
      omega

end Writes

/-! ## The map and the header -/

/-- What the map leaves out are empty sections. -/
theorem filter_told (entries : List MapEntry) :
    (entries.map MapEntry.told).filter (0 < ·.size) = entries.filter (0 < ·.size) := by
  induction entries with
  | nil => rfl
  | cons e entries ih =>
    rw [List.map_cons, List.filter_cons, List.filter_cons, ih]
    obtain ⟨kind, size, offset⟩ := e
    by_cases some : 0 < size
    · simp [MapEntry.told, some]
    · simp [MapEntry.told, some]

/-- So its entries are those of sections with blocks. -/
theorem filter_entries (sections : List Section) :
    (sections.map Section.entry).filter (0 < ·.size)
      = (sections.filter (0 < ·.blocks.length)).map Section.entry := by
  rw [List.filter_map]
  rfl

namespace Writes

variable {f : File} {order : List Nat} {b : List UInt8}

/-- The map tells of the tables by their sections. -/
theorem tables_told (h : Writes f order b) :
    (layoutOf f).tables.map MapEntry.told = (tableSections f order).map Section.entry := by
  rw [tableSections, ← tableEntries_told h.tabular (by decide), ← h.tableSizes_eq]
  rfl

/-- The entries of the map are those of the sections that are not empty. -/
theorem map_sections (h : Writes f order b) : (layoutOf f).map
    = ((sectionsOf f order).filter (0 < ·.blocks.length)).map Section.entry := by
  have last : sectionsFrom (layoutOf f).strings.stop [mapBatch f]
      = [⟨.mapList, [⟨(layoutOf f).mapOffset, encodeMap (layoutOf f).map⟩]⟩] := rfl
  rw [Layout.map, List.filter_append, ← filter_told (layoutOf f).tables, h.tables_told,
    (holding_runs f).entries, ← filter_entries, sectionsOf, dataSections, dataBatches,
    sectionsFrom_append, runs_stop, last]
  simp [Section.entry, Section.first]

end Writes

/-- Rows that fit are read from the map. -/
theorem mapRows_eq {bytes : List UInt8} {entries : List MapEntry} {offset : Nat}
    (field : wordAt bytes Header.map = offset) (stands : Stands bytes offset (encodeMap entries))
    (few : entries.length < 2 ^ 32) (small : ∀ e ∈ entries, e.size < 2 ^ 32 ∧ e.offset < 2 ^ 32) :
    mapRows bytes = entries.map MapEntry.row := by
  have count := stands.left.wordAt few
  have rows := stands.right
  rw [length_le] at rows
  have width : ∀ e : MapEntry, e.encode.length = 12 := fun e => by simp [MapEntry.encode]
  rw [mapRows, field, count]
  apply List.ext_getElem
  · simp
  · intro i inside listed
    simp only [List.length_map, List.length_range] at inside
    have row := rows.row width (List.getElem?_eq_getElem inside)
    obtain ⟨size, first⟩ := small _ (List.getElem_mem inside)
    have code := row.left.left.left.number (Legible.mapCode_lt _)
    have sizes := row.left.right.wordAt size
    have firsts := row.right.wordAt first
    simp only [List.length_append, length_le] at sizes firsts
    simp only [List.getElem_map, List.getElem_range, MapEntry.row, code, sizes, firsts]

/-- A kind is known by its code. -/
theorem mapCode_injective : Function.Injective ItemKind.mapCode := by
  intro k l same
  cases k <;> cases l <;> first | rfl | cases same

namespace Writes

variable {f : File} {order : List Nat} {b : List UInt8}

/-- No kind has two sections. -/
theorem sections_kinds (h : Writes f order b) (known : 35 ≤ f.version ∧ f.version ≤ 39) :
    ((sectionsOf f order).map Section.kind).Nodup := by
  rw [h.sections_batches known, kinds_sectionsFrom]
  exact (by decide : [ItemKind.header, .stringId, .typeId, .protoId, .fieldId, .methodId, .classDef,
    .methodHandle, .typeList, .encodedArray, .annotationItem, .annotationSet, .annotationSetRefList,
    .annotationsDirectory, .code, .classData, .stringData, .mapList].Nodup)

/-- The words of the header about a table. -/
theorem table_words (h : Writes f order b) (known : 35 ≤ f.version ∧ f.version ≤ 39)
    (small : b.length < 2 ^ 32) {k : Nat} {s : Section} (lt : k < 6)
    (found : (tableSections f order)[k]? = some s) :
    wordAt b (Header.strings + 8 * k) = s.blocks.length
      ∧ wordAt b (Header.strings + 8 * k + 4) = s.first := by
  have signed := h.signed_known known
  have inside : s ∈ sectionsOf f order :=
    List.mem_cons_of_mem _ (List.mem_append_left _ (List.mem_of_getElem? found))
  obtain ⟨count, first⟩ := h.entry_small known small s inside
  obtain ⟨e, entry, told⟩ : ∃ e, (layoutOf f).tables[k]? = some e ∧ e.told = s.entry := by
    have related := congrArg (·[k]?) h.tables_told
    simpa [found] using related
  have words : (headerWords (layoutOf f) (sizeOf f))[6 + 2 * k]? = some s.blocks.length
      ∧ (headerWords (layoutOf f) (sizeOf f))[7 + 2 * k]? = some s.first := by
    have size : s.blocks.length = e.told.size := congrArg MapEntry.size told.symm
    have offset : s.first = e.told.offset := congrArg MapEntry.offset told.symm
    rw [size, offset]
    -- Six words come before those of the tables.
    obtain rfl | rfl | rfl | rfl | rfl | rfl : k = 0 ∨ k = 1 ∨ k = 2 ∨ k = 3 ∨ k = 4 ∨ k = 5 := by
      omega
    all_goals
      obtain rfl := Option.some.inj entry
      exact ⟨rfl, rfl⟩
  have sizes := word_at signed words.1 count
  have offsets := word_at signed words.2 first
  rw [show 32 + 4 * (6 + 2 * k) = Header.strings + 8 * k by simp only [Header.strings]; omega] at sizes
  rw [show 32 + 4 * (7 + 2 * k) = Header.strings + 8 * k + 4 by simp only [Header.strings]; omega]
    at offsets
  exact ⟨sizes, offsets⟩

/-- The rows of the map are those of the sections that are not empty. -/
theorem map_rows (h : Writes f order b) (known : 35 ≤ f.version ∧ f.version ≤ 39)
    (small : b.length < 2 ^ 32) :
    mapRows b = ((sectionsOf f order).filter (0 < ·.blocks.length)).map (·.entry.row) := by
  have signed := h.signed_known known
  have stands := h.map_at signed
  have bound := stands.bound
  have field : wordAt b Header.map = (layoutOf f).mapOffset :=
    word_at signed (k := 5) rfl (by omega)
  have entries : ∀ e ∈ (layoutOf f).map, e.size < 2 ^ 32 ∧ e.offset < 2 ^ 32 := by
    rw [h.map_sections, List.forall_mem_map]
    exact fun s hs => h.entry_small known small s (List.mem_filter.mp hs).1
  have few : (layoutOf f).map.length < 2 ^ 32 := by
    have rows : (layoutOf f).map.length ≤ 18 := by
      rw [h.map_sections, List.length_map, h.sections_batches known]
      refine Nat.le_trans (List.length_filter_le _ _) ?_
      rw [← List.length_map (f := Section.kind), kinds_sectionsFrom]
      exact Nat.le_of_eq rfl
    omega
  rw [mapRows_eq field stands few entries, h.map_sections, List.map_map]
  rfl

/-- The seal is that of what follows. -/
theorem sealed (h : Writes f order b) (known : 35 ≤ f.version ∧ f.version ≤ 39) :
    wordAt b Header.checksum = adler32 (b.drop Header.signature)
      ∧ (b.drop Header.signature).take 20 = Sha1.digest (b.drop Header.fileSize) := by
  have known := known_written known
  have sum := stamp_checksum known (signedOf f order)
  have signed := drop_signature known (signedOf f order)
  rw [← h.bytes] at sum signed
  have rest : b.drop Header.fileSize = signedOf f order := by
    rw [show Header.fileSize = Header.signature + 20 from rfl, ← List.drop_drop, signed,
      List.drop_left' (length_digest _)]
  rw [sum.wordAt (adler32_lt _), signed, rest, List.take_left' (length_digest _)]
  exact ⟨rfl, rfl⟩

/-- Everything in a container fits together. -/
theorem consistent (h : Writes f order b) (known : 35 ≤ f.version ∧ f.version ≤ 39)
    (small : b.length < 2 ^ 32) : Consistent f order b where
  parts := h.parts
  header_length := length_headerOf order known
  tables_length := by rw [List.length_append, length_headerOf order known, h.dataStart_batches]
  size := by
    have length := h.length_known known
    rw [length]
    exact word_at (h.signed_known known) (k := 0) rfl (by omega)
  tables := by
    have words {k : Nat} {s : Section} := h.table_words known small (k := k) (s := s)
    exact .cons (words (k := 0) (by decide) rfl) (.cons (words (k := 1) (by decide) rfl)
      (.cons (words (k := 2) (by decide) rfl) (.cons (words (k := 3) (by decide) rfl)
      (.cons (words (k := 4) (by decide) rfl) (.cons (words (k := 5) (by decide) rfl) .nil)))))
  data := by
    have length := h.length_known known
    have bound : (layoutOf f).dataStart ≤ sizeOf f := Nat.le_add_right _ _
    have signed := h.signed_known known
    rw [length]
    exact ⟨word_at signed (k := 18) rfl (by omega), word_at signed (k := 19) rfl (by omega)⟩
  stands := h.sections_stand known
  filled := h.sections_filled known
  apart := h.sections_apart known
  inside := by
    have length := h.length_known known
    rw [sizeOf, data_batches] at length
    rw [length]
    exact inside_sectionsFrom
  aligned := by
    intro s hs word k hk
    have dvd := dvd_sectionsFrom s hs k hk
    rwa [show s.kind.alignment = 4 by revert word; cases s.kind <;> decide] at dvd
  map := h.map_rows known small
  codes := by
    have kinds := (h.sections_kinds known).map mapCode_injective
    rw [h.map_rows known small, List.map_map]
    rw [List.map_map] at kinds
    exact kinds.sublist (List.filter_sublist.map _)
  offsets := by
    have strict := offsets_strict (h.sections_apart known) (h.sections_filled known)
    rw [h.map_rows known small, List.map_map]
    exact strict.sublist firsts_sublist
  checksum := (h.sealed known).1
  signature := (h.sealed known).2

end Writes

/-- The parts of what is written fit together. -/
theorem encode_consistent {f : File} {b : List UInt8} (known : 35 ≤ f.version ∧ f.version ≤ 39)
    (written : encode f = .ok b) (small : b.length < 2 ^ 32) :
    ∃ order, Hierarchy.order f.classes = .ok order ∧ Consistent f order b := by
  obtain ⟨order, run, h⟩ := encode_eq_ok.mp written
  exact ⟨order, run, h.consistent known small⟩

/-- So it is with the shuffled file. -/
theorem encode_consistent_shuffledFile : ∃ b, encode shuffledFile = .ok b ∧ b.length < 2 ^ 32
    ∧ ∃ order, Hierarchy.order shuffledFile.classes = .ok order ∧ Consistent shuffledFile order b := by
  obtain ⟨b, written, _, small⟩ := encode_shuffledFile
  exact ⟨b, written, small, encode_consistent (by decide) written small⟩

end StubJar.Container
