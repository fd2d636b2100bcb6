import StubJar.Proofs.Container.Blocks
import StubJar.Proofs.Container.ClassOrder
import StubJar.Proofs.Container.Positions
import StubJar.Proofs.Dalvik.Mentions
import StubJar.Proofs.Success

/-!
# Where the parts of a container stand

`Writes f order b` says that the bytes are those of the file with the rows of its
classes in the given order, and that it passed the checks of writing; writing a
file is that for the order of its hierarchy (`encode_eq_ok`). From it follows where
everything stands in the bytes: the words of the header, the rows of each table,
and each run of items at the offset where it starts.
-/

namespace StubJar.Container

open StubJar.Bytes StubJar.Dalvik StubJar.Digest StubJar.Order

/-- The tables of a file. -/
def poolOf (f : File) : Pool := Pool.ofMentions f.mentions

/-- The classes of a file at their positions. -/
def placedOf (f : File) : List Placed := placeClasses (poolOf f) f.classes

/-- Where the items of a file are placed. -/
def layoutOf (f : File) : Layout :=
  Layout.ofClasses (poolOf f) f.classes (placedOf f) (bodies (placedOf f))

/-- The number of bytes of the container of a file. -/
def sizeOf (f : File) : Nat := (layoutOf f).dataStart + (layoutOf f).data.length

/-- The bytes of a container that its signature covers. -/
def signedOf (f : File) (order : List Nat) : List UInt8 :=
  encodeSizes (layoutOf f) (sizeOf f)
    ++ encodeTables (poolOf f) (layoutOf f) f.classes.toArray order ++ (layoutOf f).data

/-- What stands in front of them. -/
def sealOf (f : File) (order : List Nat) : List UInt8 :=
  magic ++ Text.utf8 (File.renderVersion (writtenVersion (poolOf f) f)) ++ [0]
    ++ le 4 (adler32 (Sha1.digest (signedOf f order) ++ signedOf f order))
    ++ Sha1.digest (signedOf f order)

theorem stamp_eq (f : File) (order : List Nat) :
    stamp (writtenVersion (poolOf f) f) (signedOf f order) = sealOf f order ++ signedOf f order := rfl

/-- The file passes every check of its parts, and writing it with the rows of its
classes in some order gives the bytes. -/
structure Writes (f : File) (order : List Nat) (b : List UInt8) : Prop where
  letters : ∀ q ∈ f.mentions.flatMap Mention.prototypes, q.shorty?.isSome
  sizes : (poolOf f).checkSizes = .ok ()
  perm : order.Perm (List.range f.classes.length)
  checked : checkBodies (bodies (placedOf f)) = .ok ()
  bytes : b = stamp (writtenVersion (poolOf f) f) (signedOf f order)

/-- A file has tables if they fit and its prototypes have letters. -/
theorem ofFile_eq_ok {f : File} {p : Pool} :
    Pool.ofFile f = .ok p ↔ p = poolOf f ∧ (poolOf f).checkSizes = .ok ()
      ∧ ∀ q ∈ f.mentions.flatMap Mention.prototypes, q.shorty?.isSome := by
  have letters : (f.mentions.flatMap Mention.prototypes).find? (·.shorty?.isNone) = none
      ↔ ∀ q ∈ f.mentions.flatMap Mention.prototypes, q.shorty?.isSome := by
    simp only [List.find?_eq_none, Option.isSome_iff_ne_none, Option.isNone_iff_eq_none, ne_eq]
  rw [Pool.ofFile, ← letters]
  simp only [File.mentions, poolOf]
  cases (f.classes.flatMap ClassDecl.mentions |>.flatMap Mention.prototypes).find?
      (·.shorty?.isNone) with
  | some q =>
    constructor
    · intro h
      cases h
    · rintro ⟨_, _, h⟩
      cases h
  | none =>
    simp only [bind_eq_ok, and_true]
    exact ⟨fun ⟨_, sizes, same⟩ => ⟨(Except.ok.inj same).symm, sizes⟩,
      fun ⟨same, sizes⟩ => ⟨(), sizes, same ▸ rfl⟩⟩

/-- It is written if it has an order, too, and bodies that can be held. -/
theorem encode_eq_ok {f : File} {b : List UInt8} :
    encode f = .ok b ↔ ∃ order, Hierarchy.order f.classes = .ok order ∧ Writes f order b := by
  simp only [encode, bind_eq_ok, ofFile_eq_ok]
  constructor
  · rintro ⟨_, ⟨rfl, sizes, letters⟩, order, ordered, _, checked, same⟩
    exact ⟨order, ordered, letters, sizes, Hierarchy.order_perm ordered, checked,
      (Except.ok.inj same).symm⟩
  · rintro ⟨order, ordered, h⟩
    exact ⟨poolOf f, ⟨rfl, h.sizes, h.letters⟩, order, ordered, (), h.checked,
      congrArg Except.ok h.bytes.symm⟩

/-! ## Runs one behind the other -/

/-- Runs of which the first starts at `start` and each further one where the
one before stops. -/
def Chained (start : Nat) : List Run → Prop
  | [] => True
  | r :: runs => r.start = start ∧ Chained r.stop runs

namespace Chained

variable {start : Nat} {runs : List Run} {bytes : List UInt8}

/-- Runs that are chained stand where they start. -/
theorem stands (h : Chained start runs)
    (stands : Stands bytes start (runs.flatMap (·.bytes.toList))) :
    ∀ r ∈ runs, Stands bytes r.start r.bytes.toList := by
  induction runs generalizing start with
  | nil => exact fun _ mem => nomatch mem
  | cons r runs ih =>
    rw [List.flatMap_cons] at stands
    intro r' mem
    rcases List.mem_cons.mp mem with rfl | later
    · rw [h.1]
      exact stands.left
    · refine ih h.2 ?_ r' later
      rw [Run.stop, h.1, ← Array.length_toList]
      exact stands.right

/-- They are as long as the last one reaches. -/
theorem length {last : Run} (h : Chained start (runs ++ [last])) :
    start + ((runs ++ [last]).flatMap (·.bytes.toList)).length = last.stop := by
  induction runs generalizing start with
  | nil =>
    obtain ⟨first, _⟩ := h
    simp [Run.stop, first]
  | cons r runs ih =>
    obtain ⟨first, rest⟩ := h
    rw [← ih rest, List.cons_append, List.flatMap_cons, List.length_append, Run.stop, first,
      Array.length_toList]
    omega

/-- A run further behind starts no earlier. -/
theorem start_le (h : Chained start runs) : ∀ r ∈ runs, start ≤ r.start := by
  induction runs generalizing start with
  | nil => exact fun _ mem => nomatch mem
  | cons r runs ih =>
    intro r' mem
    rcases List.mem_cons.mp mem with rfl | later
    · exact Nat.le_of_eq h.1.symm
    · have := ih h.2 r' later
      have := h.1
      simp only [Run.stop] at *
      omega

end Chained

/-- The runs of a layout are chained. -/
theorem chained_runs (p : Pool) (classes : List ClassDecl) (placed : List Placed)
    (bodies : List (Nat × Method × Body)) :
    Chained (Layout.ofClasses p classes placed bodies).dataStart
      (Layout.ofClasses p classes placed bodies).runs :=
  ⟨Run.start_ofItems _ _ _, Run.start_ofOptional _ _ _, Run.start_ofItems _ _ _,
    Run.start_ofItems _ _ _, Run.start_ofItems _ _ _, Run.start_ofOptional _ _ _,
    Run.start_ofItems _ _ _, Run.start_ofOptional _ _ _, Run.start_ofItems _ _ _, trivial⟩

/-- The runs take the data up to the end of the strings. -/
theorem runs_length (f : File) : (layoutOf f).dataStart
    + ((layoutOf f).runs.flatMap (·.bytes.toList)).length = (layoutOf f).strings.stop := by
  have chained : Chained (layoutOf f).dataStart (([(layoutOf f).typeLists, (layoutOf f).arrays]
      ++ (layoutOf f).annotations.runs ++ [(layoutOf f).code, (layoutOf f).classData])
      ++ [(layoutOf f).strings]) := chained_runs _ _ _ _
  exact chained.length

/-! ## The header and the tables -/

/-- A signature has 20 bytes. -/
theorem length_digest (message : List UInt8) : (Sha1.digest message).length = 20 := by
  simp [Sha1.digest]

/-- A checksum has 32 bits. -/
theorem adler32_lt (bytes : List UInt8) : adler32 bytes < 2 ^ 32 := by
  have small : ∀ s : Adler, s.low < 65521 → s.high < 65521 →
      (bytes.foldl Adler.add s).low < 65521 ∧ (bytes.foldl Adler.add s).high < 65521 := by
    induction bytes with
    | nil => exact fun _ low high => ⟨low, high⟩
    | cons b bytes ih =>
      intro s _ _
      exact ih _ (Nat.mod_lt _ (by omega)) (Nat.mod_lt _ (by omega))
  have sums := small Adler.start (by decide) (by decide)
  simp only [adler32]
  omega

/-- The words of the header from the size of the file on. -/
def headerWords (l : Layout) (size : Nat) : List Nat :=
  [size, headerSize, endianTag, 0, 0, l.mapOffset]
    ++ (l.tables.take 6).flatMap (fun e => [e.size, if 0 < e.size then e.offset else 0])
    ++ [size - l.dataStart, l.dataStart]

/-- The header is made of its words. -/
theorem encodeSizes_eq (l : Layout) (size : Nat) :
    encodeSizes l size = (headerWords l size).flatMap (le 4) := by
  have sections : (l.tables.take 6).flatMap encodeSection
      = ((l.tables.take 6).flatMap fun e => [e.size, if 0 < e.size then e.offset else 0]).flatMap
        (le 4) := by
    induction l.tables.take 6 with
    | nil => rfl
    | cons e tables ih => simp [ih, encodeSection]
  simp [encodeSizes, headerWords, sections]

/-- Behind the signature it has twenty of them. -/
theorem length_headerWords (l : Layout) (size : Nat) (six : (l.tables.take 6).length = 6) :
    (headerWords l size).length = 20 := by
  simp only [headerWords, List.length_append, List.length_flatMap, List.length_cons, List.length_nil,
    List.map_const', six, List.sum_replicate_nat]

/-- Rows of one width stand that width apart. -/
theorem Stands.row_of_mem {ι : Type} {bytes : List UInt8} {offset width : Nat}
    {form : ι → List UInt8} {items : List ι} (each : ∀ i ∈ items, (form i).length = width)
    (stands : Stands bytes offset (items.flatMap form)) {k : Nat} {i : ι} (found : items[k]? = some i) :
    Stands bytes (offset + width * k) (form i) := by
  induction items generalizing k offset with
  | nil => simp at found
  | cons i' items ih =>
    rw [List.flatMap_cons] at stands
    cases k with
    | zero =>
      obtain rfl : i' = i := by simpa using found
      exact stands.left
    | succ k =>
      have later := ih (fun j hj => each j (List.mem_cons_of_mem _ hj)) stands.right (k := k)
        (by simpa using found)
      rw [each i' List.mem_cons_self] at later
      rwa [Nat.mul_succ, Nat.add_comm (width * k), ← Nat.add_assoc]

/-- The rows of a table stand at multiples of their width. -/
theorem Stands.row {ι : Type} {bytes : List UInt8} {offset width : Nat} {form : ι → List UInt8}
    {items : List ι} (each : ∀ i, (form i).length = width) (stands : Stands bytes offset (items.flatMap form))
    {k : Nat} {i : ι} (found : items[k]? = some i) : Stands bytes (offset + width * k) (form i) :=
  stands.row_of_mem (fun i _ => each i) found

/-- The words of a list stand four bytes apart. -/
theorem Stands.word {bytes : List UInt8} {offset : Nat} {words : List Nat}
    (stands : Stands bytes offset (words.flatMap (le 4))) {k w : Nat} (found : words[k]? = some w) :
    Stands bytes (offset + 4 * k) (le 4 w) := stands.row (length_le 4) found

/-- A number that fits its width is read where it stands. -/
theorem Stands.number {bytes : List UInt8} {offset k n : Nat} (stands : Stands bytes offset (le k n))
    (fits : n < 256 ^ k) : ofLe ((bytes.drop offset).take k) = n := by
  obtain ⟨front, rest, rfl, rfl⟩ := stands
  rw [List.drop_left, List.take_left' (length_le k n)]
  exact ofLe_le fits

/-- A word is read where it stands. -/
theorem Stands.wordAt {bytes : List UInt8} {offset n : Nat} (stands : Stands bytes offset (le 4 n))
    (small : n < 2 ^ 32) : wordAt bytes offset = n := stands.number small

/-- The tables as they stand one behind the other. -/
def tablePieces (p : Pool) (l : Layout) (classes : List ClassDecl) (order : List Nat) :
    List (List UInt8) :=
  [l.strings.offsets.toList.flatMap (le 4), p.types.items.flatMap (fun d => le 4 (p.string d.text)),
    p.prototypes.items.flatMap (l.prototypeRow p), p.fields.items.flatMap (encodeFieldRow p),
    p.methods.items.flatMap (encodeMethodRow p),
    order.flatMap (fun i => classes[i]?.elim [] (l.classRow p i)),
    p.handles.items.flatMap (encodeHandleRow p)]

/-- The tables stand one behind another. -/
theorem encodeTables_eq (p : Pool) (l : Layout) (classes : List ClassDecl) (order : List Nat) :
    encodeTables p l classes.toArray order = (tablePieces p l classes order).flatten := by
  simp [encodeTables, tablePieces]

/-- The tables with their rows. -/
def tableBatches (f : File) (order : List Nat) : List Batch :=
  [⟨.stringId, (layoutOf f).strings.offsets.toList.map (le 4)⟩,
    ⟨.typeId, (poolOf f).types.items.map fun d => le 4 ((poolOf f).string d.text)⟩,
    ⟨.protoId, (poolOf f).prototypes.items.map ((layoutOf f).prototypeRow (poolOf f))⟩,
    ⟨.fieldId, (poolOf f).fields.items.map (encodeFieldRow (poolOf f))⟩,
    ⟨.methodId, (poolOf f).methods.items.map (encodeMethodRow (poolOf f))⟩,
    ⟨.classDef, order.map fun i => f.classes[i]?.elim [] ((layoutOf f).classRow (poolOf f) i)⟩,
    ⟨.methodHandle, (poolOf f).handles.items.map (encodeHandleRow (poolOf f))⟩]

/-- They are the items of the batches. -/
theorem tablePieces_eq (f : File) (order : List Nat) :
    tablePieces (poolOf f) (layoutOf f) f.classes order
      = (tableBatches f order).map fun p => p.items.flatten := rfl

/-- Every table stands where its entry says. -/
theorem stands_tableEntries {bytes : List UInt8} {start : Nat} {sizes : List (ItemKind × Nat)}
    {pieces : List (List UInt8)}
    (fit : List.Forall₂ (fun e piece => piece.length = e.2 * e.1.rowSize) sizes pieces)
    (stands : Stands bytes start pieces.flatten) :
    List.Forall₂ (fun (e : MapEntry) piece =>
      Stands bytes e.offset piece ∧ piece.length = e.size * e.kind.rowSize)
      (tableEntries start sizes) pieces := by
  induction fit generalizing start with
  | nil => exact .nil
  | @cons e piece sizes pieces length _ ih =>
    rw [List.flatten_cons] at stands
    refine .cons ⟨stands.left, length⟩ (ih ?_)
    rw [← length]
    exact stands.right

/-- Tables are as long as their sizes say. -/
theorem length_pieces {sizes : List (ItemKind × Nat)} {pieces : List (List UInt8)}
    (fit : List.Forall₂ (fun e piece => piece.length = e.2 * e.1.rowSize) sizes pieces) :
    pieces.flatten.length = tablesSize sizes := by
  induction fit with
  | nil => rfl
  | cons length _ ih => rw [List.flatten_cons, List.length_append, length, ih]; rfl

namespace Writes

variable {f : File} {order : List Nat} {b : List UInt8}

/-- The rows of each table have its width. -/
theorem tabular (h : Writes f order b) : ∀ p ∈ tableBatches f order, p.Tabular := by
  intro p mem
  simp only [tableBatches, List.mem_cons, List.not_mem_nil, or_false] at mem
  rcases mem with rfl | rfl | rfl | rfl | rfl | rfl | rfl
  all_goals refine ⟨by simp [ItemKind.rowSize], ?_⟩
  all_goals simp only [List.forall_mem_map]
  · exact fun _ _ => length_le 4 _
  · exact fun _ _ => length_le 4 _
  · exact fun _ _ => by simp [Layout.prototypeRow, ItemKind.rowSize]
  · exact fun _ _ => by simp [encodeFieldRow, ItemKind.rowSize]
  · exact fun _ _ => by simp [encodeMethodRow, ItemKind.rowSize]
  · intro i hi
    have inside := List.mem_range.mp (h.perm.mem_iff.mp hi)
    rw [List.getElem?_eq_getElem inside]
    simp [Layout.classRow, ItemKind.rowSize]
  · exact fun _ _ => by simp [encodeHandleRow, ItemKind.rowSize]

/-- The sizes of the tables are those of the batches. -/
theorem tableSizes_eq (h : Writes f order b) : tableSizes (poolOf f) f.classes.length
    = (tableBatches f order).map fun p => (p.kind, p.items.length) := by
  have strings : (layoutOf f).strings.offsets.size = (poolOf f).strings.size := by
    have size := Run.size_ofItems .stringData (layoutOf f).classData.stop
      ((poolOf f).strings.items.map encodeString)
    rwa [List.length_map] at size
  have classes : order.length = f.classes.length := by rw [h.perm.length_eq, List.length_range]
  simp only [tableBatches, List.map_cons, List.map_nil, List.length_map, Array.length_toList, strings,
    classes]
  rfl

/-- The tables are as long as their sizes say. -/
theorem fit (h : Writes f order b) :
    List.Forall₂ (fun e piece => piece.length = e.2 * e.1.rowSize)
      (tableSizes (poolOf f) f.classes.length)
      (tablePieces (poolOf f) (layoutOf f) f.classes order) := by
  rw [h.tableSizes_eq, tablePieces_eq, List.forall₂_map_left_iff, List.forall₂_map_right_iff,
    List.forall₂_same]
  exact fun p mem => (h.tabular p mem).length

/-- The data starts behind them. -/
theorem dataStart_eq (h : Writes f order b) :
    (layoutOf f).dataStart
      = headerSize + (tablePieces (poolOf f) (layoutOf f) f.classes order).flatten.length := by
  rw [length_pieces h.fit]
  rfl

/-- The number of bytes. -/
theorem length_signed (h : Writes f order b) : (signedOf f order).length + 32 = sizeOf f := by
  have words := length_headerWords (layoutOf f) (sizeOf f) rfl
  have pieces := h.dataStart_eq
  rw [signedOf, encodeSizes_eq, encodeTables_eq, List.length_append, List.length_append,
    length_flatMap_of fun _ _ => length_le 4 _, words, sizeOf]
  unfold headerSize at pieces
  omega

end Writes

/-! ## Everything at its offset

Wherever the signed part stands behind 32 bytes, everything in it stands at the offset
that the layout has for it. -/

section Signed

variable {f : File} {order : List Nat} {b bytes : List UInt8}

/-- The data does not start at zero. -/
theorem dataStart_pos (f : File) : 0 < (layoutOf f).dataStart := Nat.lt_of_lt_of_le (by decide)
  (Nat.le_add_right headerSize _)

/-- Nor does any run. -/
theorem start_pos {r : Run} (mem : r ∈ (layoutOf f).runs) : 0 < r.start :=
  Nat.lt_of_lt_of_le (dataStart_pos f) ((chained_runs _ _ _ _).start_le r mem)

/-- Nor does the map. -/
theorem mapOffset_pos (f : File) : 0 < (layoutOf f).mapOffset := by
  have run : (layoutOf f).strings ∈ (layoutOf f).runs := by simp [Layout.runs]
  have positive := start_pos run
  simp only [Layout.mapOffset, Run.stop]
  omega

/-- The words of the header are the first of what is signed. -/
theorem words_at (signed : Stands bytes 32 (signedOf f order)) :
    Stands bytes 32 ((headerWords (layoutOf f) (sizeOf f)).flatMap (le 4)) := by
  rw [signedOf, encodeSizes_eq] at signed
  exact signed.left.left

/-- A word of the header. -/
theorem word_at (signed : Stands bytes 32 (signedOf f order)) {k w : Nat}
    (found : (headerWords (layoutOf f) (sizeOf f))[k]? = some w) (small : w < 2 ^ 32) :
    wordAt bytes (32 + 4 * k) = w := ((words_at signed).word found).wordAt small

/-- The tables and the data stand behind the header. -/
theorem behind_at (signed : Stands bytes 32 (signedOf f order)) :
    Stands bytes headerSize ((tablePieces (poolOf f) (layoutOf f) f.classes order).flatten
      ++ (layoutOf f).data) := by
  rw [signedOf, encodeSizes_eq, encodeTables_eq, List.append_assoc] at signed
  have behind := signed.right
  rwa [length_flatMap_of fun _ _ => length_le 4 _,
    length_headerWords (layoutOf f) (sizeOf f) rfl] at behind

namespace Writes

/-- The tables stand where their entries say. -/
theorem tables_at (h : Writes f order b) (signed : Stands bytes 32 (signedOf f order)) :
    List.Forall₂ (fun (e : MapEntry) piece =>
      Stands bytes e.offset piece ∧ piece.length = e.size * e.kind.rowSize)
      (layoutOf f).tables (tablePieces (poolOf f) (layoutOf f) f.classes order) :=
  stands_tableEntries h.fit (behind_at signed).left

/-- Each of them by its number. -/
theorem table_at (h : Writes f order b) (signed : Stands bytes 32 (signedOf f order)) {k : Nat}
    {e : MapEntry} {piece : List UInt8} (entry : (layoutOf f).tables[k]? = some e)
    (found : (tablePieces (poolOf f) (layoutOf f) f.classes order)[k]? = some piece) :
    Stands bytes e.offset piece ∧ piece.length = e.size * e.kind.rowSize := by
  have related := h.tables_at signed
  generalize (layoutOf f).tables = entries at related entry
  generalize tablePieces (poolOf f) (layoutOf f) f.classes order = pieces at related found
  induction related generalizing k with
  | nil => simp at entry
  | cons head _ ih =>
    cases k with
    | zero =>
      obtain rfl := Option.some.inj entry
      obtain rfl := Option.some.inj found
      exact head
    | succ k => exact ih (k := k) (by simpa using entry) (by simpa using found)

/-- The data stands where the layout says. -/
theorem data_at (h : Writes f order b) (signed : Stands bytes 32 (signedOf f order)) :
    Stands bytes (layoutOf f).dataStart (layoutOf f).data := by
  have data := (behind_at signed).right
  rwa [← h.dataStart_eq] at data

/-- Each run stands where it starts. -/
theorem run_at (h : Writes f order b) (signed : Stands bytes 32 (signedOf f order)) :
    ∀ r ∈ (layoutOf f).runs, Stands bytes r.start r.bytes.toList := by
  have data := h.data_at signed
  rw [Layout.data, List.append_assoc] at data
  exact (chained_runs _ _ _ _).stands data.left

/-- Every item of a run stands at its offset. -/
theorem items_at (h : Writes f order b) (signed : Stands bytes 32 (signedOf f order))
    {kind : ItemKind} {start : Nat} {items : List (List UInt8)}
    (mem : Run.ofItems kind start items ∈ (layoutOf f).runs) :
    List.Forall₂ (fun item offset => 0 < offset ∧ Stands bytes offset item) items
      (Run.ofItems kind start items).offsets.toList := by
  have stands := h.run_at signed _ mem
  have positive := start_pos mem
  rw [Run.start_ofItems] at stands positive
  exact Run.foundAt_ofItems positive stands

/-- So does every item of a run in which some may be missing. -/
theorem optional_items_at (h : Writes f order b) (signed : Stands bytes 32 (signedOf f order))
    {kind : ItemKind} {start : Nat} {items : List (Option (List UInt8))}
    (mem : (Run.ofOptional kind start items).1 ∈ (layoutOf f).runs) :
    List.Forall₂ (FoundAt bytes) items (Run.ofOptional kind start items).2.toList := by
  have stands := h.run_at signed _ mem
  have positive := start_pos mem
  rw [Run.start_ofOptional] at stands positive
  exact Run.foundAt_ofOptional positive stands

/-- The map stands at its offset. -/
theorem map_at (h : Writes f order b) (signed : Stands bytes 32 (signedOf f order)) :
    Stands bytes (layoutOf f).mapOffset (encodeMap (layoutOf f).map) := by
  have data := h.data_at signed
  rw [Layout.data] at data
  have map := data.right
  rwa [List.length_append, List.length_replicate, ← Nat.add_assoc, runs_length] at map

end Writes

end Signed

/-! ## The header is accepted -/

/-- What is sealed starts with the magic bytes and the digits of the version. -/
theorem stamp_front {version : Nat} (known : 35 ≤ version ∧ version ≤ 39) (rest : List UInt8) :
    ∃ digits, versionOf digits = .ok version ∧ digits.length = 3
      ∧ stamp version rest = magic ++ (digits ++ ([0]
        ++ (le 4 (adler32 (Sha1.digest rest ++ rest)) ++ (Sha1.digest rest ++ rest)))) := by
  have digits : versionOf (Text.utf8 (File.renderVersion version)) = .ok version
      ∧ (Text.utf8 (File.renderVersion version)).length = 3 := by
    obtain rfl | rfl | rfl | rfl | rfl : version = 35 ∨ version = 36 ∨ version = 37 ∨ version = 38
        ∨ version = 39 := by omega
    all_goals exact ⟨rfl, rfl⟩
  exact ⟨_, digits.1, digits.2, by simp [stamp]⟩

/-- The seal has 32 bytes. -/
theorem length_stamp {version : Nat} (known : 35 ≤ version ∧ version ≤ 39) (rest : List UInt8) :
    (stamp version rest).length = rest.length + 32 := by
  obtain ⟨digits, _, three, front⟩ := stamp_front known rest
  rw [front]
  simp [magic, three, length_digest]
  omega

/-- The checksum is that of the signature and of what it covers. -/
theorem stamp_checksum {version : Nat} (known : 35 ≤ version ∧ version ≤ 39) (rest : List UInt8) :
    Stands (stamp version rest) Header.checksum (le 4 (adler32 (Sha1.digest rest ++ rest))) := by
  obtain ⟨digits, _, three, front⟩ := stamp_front known rest
  rw [front]
  exact ⟨magic ++ (digits ++ [0]), Sha1.digest rest ++ rest, by simp,
    by simp [magic, three, Header.checksum]⟩

/-- What the checksum is of is the signature and the rest. -/
theorem drop_signature {version : Nat} (known : 35 ≤ version ∧ version ≤ 39) (rest : List UInt8) :
    (stamp version rest).drop Header.signature = Sha1.digest rest ++ rest := by
  obtain ⟨digits, _, three, front⟩ := stamp_front known rest
  rw [front, ← List.append_assoc [0], ← List.append_assoc digits, ← List.append_assoc magic,
    List.drop_left' (by simp [magic, three, Header.signature])]

/-- The seal does not hide what is sealed. -/
theorem stamp_injective {version : Nat} (known : 35 ≤ version ∧ version ≤ 39) {rest rest' : List UInt8}
    (same : stamp version rest = stamp version rest') : rest = rest' := by
  have behind := congrArg (List.drop Header.signature) same
  rw [drop_signature known, drop_signature known] at behind
  exact (List.append_inj behind (by rw [length_digest, length_digest])).2

/-- Handles ask for a version that is known. -/
theorem known_written {f : File} (known : 35 ≤ f.version ∧ f.version ≤ 39) :
    35 ≤ writtenVersion (poolOf f) f ∧ writtenVersion (poolOf f) f ≤ 39 := by
  rw [writtenVersion]
  split
  · simp only [File.handleVersion]
    omega
  · exact known

/-- A known version has three digits. -/
theorem length_sealOf {f : File} (order : List Nat) (known : 35 ≤ f.version ∧ f.version ≤ 39) :
    (sealOf f order).length = 32 := by
  have length := length_stamp (known_written known) (signedOf f order)
  rw [stamp_eq, List.length_append] at length
  omega

namespace Writes

variable {f : File} {order : List Nat} {b : List UInt8}

/-- Behind a known version everything is where it should be. -/
theorem signed_known (h : Writes f order b) (known : 35 ≤ f.version ∧ f.version ≤ 39) :
    Stands b 32 (signedOf f order) :=
  ⟨sealOf f order, [], by rw [h.bytes, stamp_eq, List.append_nil], length_sealOf order known⟩

/-- What is written is as long as the layout says. -/
theorem length_known (h : Writes f order b) (known : 35 ≤ f.version ∧ f.version ≤ 39) :
    b.length = sizeOf f := by rw [h.bytes, length_stamp (known_written known), h.length_signed]

end Writes

/-- What holds can be required. -/
theorem require_of {condition : Bool} {fault : DecodeFault} (holds : condition = true) :
    require condition fault = .ok () := by rw [require, if_pos holds]

/-- A container that tells its own size and the order of bytes is accepted. -/
theorem checkHeader_stamp {version : Nat} {rest : List UInt8}
    (known : 35 ≤ version ∧ version ≤ 39) (small : rest.length + 32 < 2 ^ 32)
    (enough : headerSize ≤ rest.length + 32)
    (declared : Stands (stamp version rest) Header.fileSize (le 4 (rest.length + 32)))
    (tag : Stands (stamp version rest) Header.endianTag (le 4 endianTag)) :
    checkHeader (stamp version rest) = .ok (version, stamp version rest) := by
  obtain ⟨digits, spelled, three, front⟩ := stamp_front known rest
  have length := length_stamp known rest
  have sum := stamp_checksum known rest
  have lead : (stamp version rest).take 8 = magic ++ (digits ++ [0]) := by
    rw [front, ← List.append_assoc digits, ← List.append_assoc magic,
      List.take_left' (by simp [magic, three])]
  have signed := drop_signature known rest
  have whole : (stamp version rest).take (rest.length + 32) = stamp version rest :=
    List.take_of_length_le (by omega)
  rw [checkHeader]
  refine bind_eq_ok.mpr ⟨(), require_of (by simpa [length] using enough), ?_⟩
  refine bind_eq_ok.mpr ⟨(), require_of ?_, ?_⟩
  · rw [lead]
    simp [magic, three]
  refine bind_eq_ok.mpr ⟨version, ?_, ?_⟩
  · rw [lead, List.drop_left' (by simp [magic]), List.take_left' three]
    exact spelled
  refine bind_eq_ok.mpr ⟨(), require_of ?_, ?_⟩
  · rw [tag.wordAt (by decide)]
    rfl
  refine bind_eq_ok.mpr ⟨(), require_of ?_, ?_⟩
  · rw [declared.wordAt small, length]
    simpa using enough
  rw [declared.wordAt small, whole]
  dsimp only
  rw [sum.wordAt (adler32_lt _), signed]
  exact bind_eq_ok.mpr ⟨(), require_of (by simp), rfl⟩

/-! ## A container that can be read -/

/-- The header of what is written is accepted. -/
theorem Writes.checkHeader_eq {f : File} {order : List Nat} {b : List UInt8} (h : Writes f order b)
    (known : 35 ≤ f.version ∧ f.version ≤ 39) (small : b.length < 2 ^ 32) :
    checkHeader b = .ok (writtenVersion (poolOf f) f, b) := by
  have length := h.length_known known
  have signed := h.length_signed
  have words := words_at (h.signed_known known)
  have behind := (behind_at (h.signed_known known)).bound
  have declared := words.word (k := 0) (w := sizeOf f) rfl
  have tag := words.word (k := 2) (w := endianTag) rfl
  rw [← signed] at declared
  have bytes := h.bytes
  subst bytes
  exact checkHeader_stamp (known_written known) (by omega) (by omega) declared tag

/-- A file that readers accept once it is written: its version and its flags are
known, the kinds of its handles agree with their members, no method is listed
twice, and there are fewer bytes than offsets can address. -/
structure Legible (f : File) (order : List Nat) (b : List UInt8) : Prop extends Writes f order b where
  known : 35 ≤ f.version ∧ f.version ≤ 39
  flags : ∀ c ∈ f.classes, c.FlagsKnown
  agree : ∀ h ∈ f.mentions.flatMap Mention.handles, h.Agrees
  distinct : f.MethodsDistinct
  small : b.length < 2 ^ 32

namespace Legible

variable {f : File} {order : List Nat} {b : List UInt8}

/-- What is signed stands behind the seal. -/
theorem stands_signed (h : Legible f order b) : Stands b 32 (signedOf f order) :=
  h.signed_known h.known

/-- A container is as long as its header says. -/
theorem length_eq (h : Legible f order b) : b.length = sizeOf f := h.length_known h.known

/-- Each table stands where its entry says. -/
theorem table (h : Legible f order b) {k : Nat} {e : MapEntry} {piece : List UInt8}
    (entry : (layoutOf f).tables[k]? = some e)
    (found : (tablePieces (poolOf f) (layoutOf f) f.classes order)[k]? = some piece) :
    Stands b e.offset piece ∧ piece.length = e.size * e.kind.rowSize :=
  h.table_at h.stands_signed entry found

/-- An offset at which something stands fits its width. -/
theorem offset_lt (h : Legible f order b) {offset : Nat} {item : List UInt8}
    (stands : Stands b offset item) : offset < 2 ^ 32 := by
  have bound := stands.bound
  have small := h.small
  omega

/-- So does the length of what stands there. -/
theorem length_lt (h : Legible f order b) {offset : Nat} {item : List UInt8}
    (stands : Stands b offset item) : item.length < 2 ^ 32 := by
  have bound := stands.bound
  have small := h.small
  omega

/-- Every item of a run is found at its offset. -/
theorem items_found (h : Legible f order b) {kind : ItemKind} {start : Nat}
    {items : List (List UInt8)} (mem : Run.ofItems kind start items ∈ (layoutOf f).runs) :
    List.Forall₂ (fun item offset => 0 < offset ∧ Stands b offset item) items
      (Run.ofItems kind start items).offsets.toList := h.items_at h.stands_signed mem

/-- The map stands at its offset. -/
theorem stands_map (h : Legible f order b) :
    Stands b (layoutOf f).mapOffset (encodeMap (layoutOf f).map) := h.map_at h.stands_signed

/-- A word of the header is found at its offset. -/
theorem word (h : Legible f order b) {k w : Nat}
    (found : (headerWords (layoutOf f) (sizeOf f))[k]? = some w) (small : w < 2 ^ 32) :
    wordAt b (32 + 4 * k) = w := word_at h.stands_signed found small

/-- The header is accepted. -/
theorem checkHeader_eq (h : Legible f order b) :
    checkHeader b = .ok (writtenVersion (poolOf f) f, b) := h.toWrites.checkHeader_eq h.known h.small

/-- The rows of a section are read. -/
theorem rowsAt_eq {α : Type} (h : Legible f order b) {k offset width : Nat} {piece : List UInt8}
    {row : Decoder α} {items : List α}
    (size : (headerWords (layoutOf f) (sizeOf f))[k]? = some items.length)
    (start : (headerWords (layoutOf f) (sizeOf f))[k + 1]?
      = some (if 0 < items.length then offset else 0))
    (stands : Stands b offset piece) (length : piece.length = items.length * width)
    (positive : 0 < width) (reads : Reads (Decoder.times items.length row) piece items) :
    rowsAt (Image.ofBytes b) b (32 + 4 * k) row = .ok items.toArray := by
  have offset_lt := h.offset_lt stands
  have length_lt := h.length_lt stands
  have wide := Nat.le_mul_of_pos_right items.length positive
  rw [rowsAt, h.word size (by omega), Nat.add_assoc, ← Nat.mul_succ,
    h.word start (by split <;> omega)]
  split
  · rw [stands.decodeAt reads]
    rfl
  · rename_i none
    obtain rfl : items = [] := List.length_eq_zero_iff.mp (by omega)
    have nothing : Stands b 0 ([] ++ b) := Stands.whole b
    rw [nothing.left.decodeAt (Reads.times .nil)]
    rfl

end Legible

end StubJar.Container
