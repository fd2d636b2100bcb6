import StubJar.Container.Encoder
import StubJar.Proofs.Container.Placement

/-!
# Batches of items as blocks

A container is a sequence of batches, each the items of one kind. An item is put at the
first multiple of the alignment of its kind that is not before the end of what stands
already, with zeros in between. `Batch.blocks` says where each item ends up and
`Batch.bytes` which bytes that gives; `sectionsFrom` and `bytesFrom` say the same of
batches one behind the other.

Whatever the items are, the blocks stand at their offsets in the bytes, at multiples of
their alignments, one behind the other. The runs in which the items of a file are placed
are such batches (`Holding.bytes`), and their entries in the map count the blocks
(`Holding.entries`); so are the tables, whose rows need no zeros in between
(`Rows.bytes`).
-/

namespace StubJar.Container

open StubJar.Bytes

/-- Items of one kind. -/
structure Batch where
  kind : ItemKind
  items : List (List UInt8)

/-- An item at its offset. -/
structure Block where
  offset : Nat
  bytes : List UInt8

/-- The offset behind the last byte. -/
def Block.stop (k : Block) : Nat := k.offset + k.bytes.length

/-- The items of one kind, each at its offset. -/
structure Section where
  kind : ItemKind
  blocks : List Block

namespace Section

/-- Where the first block is; zero if there is none. -/
def first (s : Section) : Nat := (s.blocks.head?.map Block.offset).getD 0

/-- What the map says about the section. -/
def entry (s : Section) : MapEntry := ⟨s.kind, s.blocks.length, s.first⟩

end Section

/-- Items one behind the other, each at a multiple of the alignment. -/
def blocksFrom (alignment : Nat) : Nat → List (List UInt8) → List Block
  | _, [] => []
  | start, item :: items =>
    let offset := start + padding alignment start
    ⟨offset, item⟩ :: blocksFrom alignment (offset + item.length) items

/-- Their bytes, with zeros where the alignment leaves a gap. -/
def filledFrom (alignment : Nat) : Nat → List (List UInt8) → List UInt8
  | _, [] => []
  | start, item :: items =>
    let gap := padding alignment start
    List.replicate gap 0 ++ item ++ filledFrom alignment (start + gap + item.length) items

namespace Batch

/-- Where the items of a batch are that starts at an offset. -/
def blocks (p : Batch) (start : Nat) : List Block := blocksFrom p.kind.alignment start p.items

/-- The bytes of a batch that starts at an offset. -/
def bytes (p : Batch) (start : Nat) : List UInt8 := filledFrom p.kind.alignment start p.items

/-- Where a batch stops. -/
def stop (p : Batch) (start : Nat) : Nat := start + (p.bytes start).length

end Batch

/-- Batches one behind the other. -/
def sectionsFrom : Nat → List Batch → List Section
  | _, [] => []
  | start, p :: batches => ⟨p.kind, p.blocks start⟩ :: sectionsFrom (p.stop start) batches

/-- The bytes of batches one behind the other. -/
def bytesFrom : Nat → List Batch → List UInt8
  | _, [] => []
  | start, p :: batches => p.bytes start ++ bytesFrom (p.stop start) batches

/-! ## Items -/

/-- Items of every kind are aligned to something. -/
theorem alignment_pos (kind : ItemKind) : 0 < kind.alignment := by cases kind <;> decide

section Items

variable {alignment start : Nat} {items : List (List UInt8)} {bytes : List UInt8}

@[simp] theorem bytes_blocksFrom : (blocksFrom alignment start items).map Block.bytes = items := by
  induction items generalizing start with
  | nil => rfl
  | cons item items ih => rw [blocksFrom, List.map_cons, ih]

@[simp] theorem length_blocksFrom : (blocksFrom alignment start items).length = items.length := by
  rw [← List.length_map (f := Block.bytes), bytes_blocksFrom]

/-- Each block stands where it says. -/
theorem stands_blocksFrom (stands : Stands bytes start (filledFrom alignment start items)) :
    ∀ k ∈ blocksFrom alignment start items, Stands bytes k.offset k.bytes := by
  induction items generalizing start with
  | nil => exact fun _ mem => nomatch mem
  | cons item items ih =>
    intro k mem
    rw [filledFrom, List.append_assoc] at stands
    have behind := stands.right
    rw [List.length_replicate] at behind
    rcases List.mem_cons.mp mem with rfl | later
    · exact behind.left
    · exact ih behind.right k later

/-- It is aligned. -/
theorem dvd_blocksFrom (positive : 0 < alignment) :
    ∀ k ∈ blocksFrom alignment start items, alignment ∣ k.offset := by
  induction items generalizing start with
  | nil => exact fun _ mem => nomatch mem
  | cons item items ih =>
    intro k mem
    rcases List.mem_cons.mp mem with rfl | later
    · exact dvd_add_padding positive start
    · exact ih k later

example : (blocksFrom 4 5 [[1, 2], [3]]).map Block.offset = [8, 12] := rfl

/-- It lies inside the bytes of all blocks. -/
theorem inside_blocksFrom : ∀ k ∈ blocksFrom alignment start items,
    start ≤ k.offset ∧ k.stop ≤ start + (filledFrom alignment start items).length := by
  induction items generalizing start with
  | nil => exact fun _ mem => nomatch mem
  | cons item items ih =>
    intro k mem
    simp only [filledFrom, List.length_append, List.length_replicate]
    rcases List.mem_cons.mp mem with rfl | later
    · simp only [Block.stop]
      omega
    · have := ih k later
      omega

/-- Blocks do not overlap. -/
theorem apart_blocksFrom :
    (blocksFrom alignment start items).Pairwise fun k l => k.stop ≤ l.offset := by
  induction items generalizing start with
  | nil => exact .nil
  | cons item items ih => exact .cons (fun k later => (inside_blocksFrom k later).1) ih

/-- There are no more items than bytes, unless some are empty. -/
theorem length_le_filledFrom (filled : ∀ item ∈ items, item ≠ []) :
    items.length ≤ (filledFrom alignment start items).length := by
  induction items generalizing start with
  | nil => exact Nat.zero_le _
  | cons item items ih =>
    have some := List.length_pos_iff.mpr (filled item List.mem_cons_self)
    have rest : items.length
        ≤ (filledFrom alignment (start + padding alignment start + item.length) items).length :=
      ih fun i hi => filled i (List.mem_cons_of_mem _ hi)
    simp only [filledFrom, List.length_append, List.length_cons, List.length_replicate]
    omega

/-- Items whose lengths are multiples of the alignment need no zeros in between. -/
theorem filledFrom_eq_flatten (aligned : alignment ∣ start)
    (each : ∀ item ∈ items, alignment ∣ item.length) :
    filledFrom alignment start items = items.flatten := by
  induction items generalizing start with
  | nil => rfl
  | cons item items ih =>
    have next := Nat.dvd_add aligned (each item List.mem_cons_self)
    simp only [filledFrom, padding_of_dvd aligned, Nat.add_zero, List.replicate_zero,
      List.nil_append, List.flatten_cons]
    rw [ih next fun i hi => each i (List.mem_cons_of_mem _ hi)]

end Items

/-! ## Batches -/

section Batches

variable {start : Nat} {batches : List Batch} {bytes : List UInt8}

/-- The bytes of batches stand behind those of the batches in front. -/
theorem bytesFrom_append (front back : List Batch) :
    bytesFrom start (front ++ back)
      = bytesFrom start front ++ bytesFrom (start + (bytesFrom start front).length) back := by
  induction front generalizing start with
  | nil => rfl
  | cons p front ih =>
    rw [List.cons_append, bytesFrom, bytesFrom, ih, List.append_assoc, List.length_append,
      ← Nat.add_assoc]
    rfl

theorem sectionsFrom_append (front back : List Batch) :
    sectionsFrom start (front ++ back)
      = sectionsFrom start front ++ sectionsFrom (start + (bytesFrom start front).length) back := by
  induction front generalizing start with
  | nil => rfl
  | cons p front ih =>
    rw [List.cons_append, sectionsFrom, sectionsFrom, ih, bytesFrom, List.length_append,
      ← Nat.add_assoc]
    rfl

/-- Each batch makes a section of its kind. -/
theorem kinds_sectionsFrom :
    (sectionsFrom start batches).map Section.kind = batches.map Batch.kind := by
  induction batches generalizing start with
  | nil => rfl
  | cons p batches ih => rw [sectionsFrom, List.map_cons, List.map_cons, ih]

/-- Each block of a section stands where it says. -/
theorem stands_sectionsFrom (stands : Stands bytes start (bytesFrom start batches)) :
    ∀ s ∈ sectionsFrom start batches, ∀ k ∈ s.blocks, Stands bytes k.offset k.bytes := by
  induction batches generalizing start with
  | nil => exact fun _ mem => nomatch mem
  | cons p batches ih =>
    intro s mem
    rcases List.mem_cons.mp mem with rfl | later
    · exact stands_blocksFrom stands.left
    · exact ih stands.right s later

/-- It is aligned as its kind asks for. -/
theorem dvd_sectionsFrom :
    ∀ s ∈ sectionsFrom start batches, ∀ k ∈ s.blocks, s.kind.alignment ∣ k.offset := by
  induction batches generalizing start with
  | nil => exact fun _ mem => nomatch mem
  | cons p batches ih =>
    intro s mem
    rcases List.mem_cons.mp mem with rfl | later
    · exact dvd_blocksFrom (alignment_pos p.kind)
    · exact ih s later

/-- It lies inside the bytes of all sections. -/
theorem inside_sectionsFrom : ∀ s ∈ sectionsFrom start batches, ∀ k ∈ s.blocks,
    start ≤ k.offset ∧ k.stop ≤ start + (bytesFrom start batches).length := by
  induction batches generalizing start with
  | nil => exact fun _ mem => nomatch mem
  | cons p batches ih =>
    intro s mem k hk
    rw [bytesFrom, List.length_append]
    rcases List.mem_cons.mp mem with rfl | later
    · have inside : start ≤ k.offset ∧ k.stop ≤ start + (p.bytes start).length :=
        inside_blocksFrom k hk
      omega
    · obtain ⟨above, below⟩ := ih s later k hk
      rw [Batch.stop] at above
      rw [show start + ((p.bytes start).length + (bytesFrom (p.stop start) batches).length)
        = p.stop start + (bytesFrom (p.stop start) batches).length by rw [Batch.stop]; omega]
      exact ⟨by omega, below⟩

/-- Blocks of different sections do not overlap either. -/
theorem apart_sectionsFrom :
    ((sectionsFrom start batches).flatMap Section.blocks).Pairwise fun k l => k.stop ≤ l.offset := by
  induction batches generalizing start with
  | nil => exact .nil
  | cons p batches ih =>
    rw [sectionsFrom, List.flatMap_cons]
    refine List.pairwise_append.mpr ⟨apart_blocksFrom, ih, fun k hk l hl => ?_⟩
    obtain ⟨s, hs, inside⟩ := List.mem_flatMap.mp hl
    exact Nat.le_trans (inside_blocksFrom k hk).2 (inside_sectionsFrom s hs l inside).1

/-- Where no item is empty, a section has no more items than there are bytes. -/
theorem length_le_bytesFrom (filled : ∀ p ∈ batches, ∀ item ∈ p.items, item ≠ []) :
    ∀ s ∈ sectionsFrom start batches, s.blocks.length ≤ (bytesFrom start batches).length := by
  induction batches generalizing start with
  | nil => exact fun _ mem => nomatch mem
  | cons p batches ih =>
    intro s mem
    rw [bytesFrom, List.length_append]
    rcases List.mem_cons.mp mem with rfl | later
    · have count : (p.blocks start).length ≤ (p.bytes start).length := by
        rw [Batch.blocks, length_blocksFrom]
        exact length_le_filledFrom (filled p List.mem_cons_self)
      exact Nat.le_trans count (Nat.le_add_right _ _)
    · have rest := ih (fun q hq => filled q (List.mem_cons_of_mem _ hq)) s later
      exact Nat.le_trans rest (Nat.le_add_left _ _)

/-- The blocks of a section are the items of a batch. -/
theorem mem_sectionsFrom {s : Section} (mem : s ∈ sectionsFrom start batches) :
    ∃ p ∈ batches, p.kind = s.kind ∧ s.blocks.map Block.bytes = p.items := by
  induction batches generalizing start with
  | nil => cases mem
  | cons p batches ih =>
    rcases List.mem_cons.mp mem with rfl | later
    · exact ⟨p, List.mem_cons_self, rfl, bytes_blocksFrom⟩
    · obtain ⟨q, hq, same⟩ := ih later
      exact ⟨q, List.mem_cons_of_mem _ hq, same⟩

end Batches

/-! ## Sections in which no item is empty -/

section Filled

variable {sections : List Section}

/-- Where no item is empty, the offsets of the blocks ascend strictly. -/
theorem offsets_strict (apart : (sections.flatMap Section.blocks).Pairwise fun k l => k.stop ≤ l.offset)
    (filled : ∀ s ∈ sections, ∀ k ∈ s.blocks, k.bytes ≠ []) :
    ((sections.flatMap Section.blocks).map Block.offset).Pairwise (· < ·) := by
  refine List.pairwise_map.mpr (apart.imp_of_mem fun {k l} hk _ le => ?_)
  obtain ⟨s, hs, inside⟩ := List.mem_flatMap.mp hk
  have some := List.length_pos_iff.mpr (filled s hs k inside)
  simp only [Block.stop] at le
  omega

/-- The offsets of sections with blocks are among those of their blocks. -/
theorem firsts_sublist :
    ((sections.filter (0 < ·.blocks.length)).map Section.first).Sublist
      ((sections.flatMap Section.blocks).map Block.offset) := by
  induction sections with
  | nil => exact .slnil
  | cons s sections ih =>
    rw [List.flatMap_cons, List.map_append]
    obtain ⟨kind, blocks⟩ := s
    cases blocks with
    | nil => exact ih
    | cons k blocks =>
      exact (List.Sublist.cons_cons k.offset (ih.trans (List.sublist_append_right _ _)))

end Filled

/-! ## Runs are batches -/

section Runs

/-- Placing further items adds their bytes and their offsets. -/
theorem Run.foldl_add (items : List (List UInt8)) (r : Run) :
    (items.foldl Run.add r).bytes.toList
        = r.bytes.toList ++ filledFrom r.kind.alignment r.stop items
      ∧ (items.foldl Run.add r).offsets.toList
        = r.offsets.toList ++ (blocksFrom r.kind.alignment r.stop items).map Block.offset := by
  induction items generalizing r with
  | nil => simp [filledFrom, blocksFrom]
  | cons item items ih =>
    have stop : (r.add item).stop = r.stop + padding r.kind.alignment r.stop + item.length := by
      rw [Run.stop, ← Array.length_toList, Run.add_bytes, List.length_append, List.length_append,
        List.length_replicate, Array.length_toList, ← Nat.add_assoc, ← Nat.add_assoc]
      rfl
    obtain ⟨placed, noted⟩ := ih (r.add item)
    rw [stop, Run.add_bytes] at placed
    rw [stop] at noted
    refine ⟨?_, ?_⟩
    · rw [List.foldl_cons, placed, filledFrom]
      simp [Run.add, Run.gap]
    · rw [List.foldl_cons, noted, blocksFrom]
      simp [Run.add, Run.gap]

/-- A run has the bytes of its batch. -/
theorem Run.bytes_ofItems (p : Batch) (start : Nat) :
    (Run.ofItems p.kind start p.items).bytes.toList = p.bytes start := by
  obtain ⟨placed, _⟩ := Run.foldl_add p.items (Run.empty p.kind start)
  exact placed

/-- It has the offsets of its blocks. -/
theorem Run.offsets_ofItems (p : Batch) (start : Nat) :
    (Run.ofItems p.kind start p.items).offsets.toList = (p.blocks start).map Block.offset := by
  obtain ⟨_, noted⟩ := Run.foldl_add p.items (Run.empty p.kind start)
  exact noted

/-- It stops where the batch does. -/
theorem Run.stop_ofItems (p : Batch) (start : Nat) :
    (Run.ofItems p.kind start p.items).stop = p.stop start := by
  rw [Run.stop, Run.start_ofItems, ← Array.length_toList, Run.bytes_ofItems, Batch.stop]

/-- Its entry in the map is that of its section. -/
theorem Run.mapEntry_ofItems (p : Batch) (start : Nat) :
    (Run.ofItems p.kind start p.items).mapEntry = Section.entry ⟨p.kind, p.blocks start⟩ := by
  have offsets := Run.offsets_ofItems p start
  have first : (Run.ofItems p.kind start p.items).offsets.getD 0 0
      = Section.first ⟨p.kind, p.blocks start⟩ := by
    rw [Array.getD_eq_getD_getElem?, ← Array.getElem?_toList, offsets, Section.first,
      List.getElem?_map, List.head?_eq_getElem?]
  rw [Run.mapEntry, first, Run.kind_ofItems, ← Array.length_toList, offsets, List.length_map]
  rfl

/-- A run in which some items may be missing is the run of those that are there. -/
theorem Run.fst_ofOptional {ι : Type} (kind : ItemKind) (start : Nat)
    (form? : ι → Option (List UInt8)) (items : List ι) :
    (Run.ofOptional kind start (items.map form?)).1
      = Run.ofItems kind start (items.filterMap form?) := by
  have general : ∀ s : Run × Array Nat, ((items.map form?).foldl Run.addIfAny s).1
      = (items.filterMap form?).foldl Run.add s.1 := by
    induction items with
    | nil => exact fun _ => rfl
    | cons i items ih =>
      intro s
      rw [List.map_cons, List.foldl_cons, ih, List.filterMap_cons]
      cases form? i with
      | none => rfl
      | some item => rfl
  exact general (Run.empty kind start, #[])

/-- The runs of the given batches, the first at `start` and each further one where the one
before stops. -/
def Holding (start : Nat) : List Run → List Batch → Prop
  | [], [] => True
  | r :: runs, p :: batches => r = Run.ofItems p.kind start p.items ∧ Holding r.stop runs batches
  | _, _ => False

namespace Holding

variable {start : Nat} {runs : List Run} {batches : List Batch}

/-- Runs that hold batches have their bytes. -/
theorem bytes (h : Holding start runs batches) :
    runs.flatMap (·.bytes.toList) = bytesFrom start batches := by
  induction runs generalizing start batches with
  | nil =>
    cases batches with
    | nil => rfl
    | cons p batches => exact h.elim
  | cons r runs ih =>
    cases batches with
    | nil => exact h.elim
    | cons p batches =>
      obtain ⟨rfl, rest⟩ := h
      rw [Run.stop_ofItems] at rest
      rw [List.flatMap_cons, Run.bytes_ofItems, ih rest, bytesFrom]

/-- The map tells of them by their sections. -/
theorem entries (h : Holding start runs batches) :
    runs.map Run.mapEntry = (sectionsFrom start batches).map Section.entry := by
  induction runs generalizing start batches with
  | nil =>
    cases batches with
    | nil => rfl
    | cons p batches => exact h.elim
  | cons r runs ih =>
    cases batches with
    | nil => exact h.elim
    | cons p batches =>
      obtain ⟨rfl, rest⟩ := h
      rw [Run.stop_ofItems] at rest
      rw [List.map_cons, Run.mapEntry_ofItems, ih rest, sectionsFrom, List.map_cons]

end Holding

end Runs

/-! ## Tables are batches -/

section Tables

/-- The rows of a table, all of the size that its kind has. -/
structure Batch.Tabular (p : Batch) : Prop where
  kind : 0 < p.kind.rowSize
  rows : ∀ row ∈ p.items, row.length = p.kind.rowSize

/-- An entry as the header tells it, where the offset of an empty table is zero. -/
def MapEntry.told (e : MapEntry) : MapEntry := ⟨e.kind, e.size, if 0 < e.size then e.offset else 0⟩

/-- The rows of tables keep the alignment. -/
theorem rowSize_aligned {kind : ItemKind} (some : 0 < kind.rowSize) :
    kind.alignment = 4 ∧ 4 ∣ kind.rowSize := by
  revert some
  cases kind <;> decide

namespace Batch.Tabular

variable {p : Batch} {start : Nat}

/-- So the rows of a table stand without gaps. -/
theorem bytes (h : p.Tabular) (aligned : 4 ∣ start) : p.bytes start = p.items.flatten := by
  obtain ⟨four, rows⟩ := rowSize_aligned h.kind
  rw [Batch.bytes, four]
  refine filledFrom_eq_flatten aligned fun row mem => ?_
  rw [h.rows row mem]
  exact rows

/-- A table is as long as its rows together. -/
theorem length (h : p.Tabular) : p.items.flatten.length = p.items.length * p.kind.rowSize := by
  rw [← List.flatMap_id]
  exact length_flatMap_of h.rows

/-- It stops behind them. -/
theorem stop (h : p.Tabular) (aligned : 4 ∣ start) :
    p.stop start = start + p.items.length * p.kind.rowSize := by
  rw [Batch.stop, h.bytes aligned, h.length]

/-- The next table is aligned as well. -/
theorem next (h : p.Tabular) (aligned : 4 ∣ start) : 4 ∣ p.stop start := by
  rw [h.stop aligned]
  exact Nat.dvd_add aligned (Nat.dvd_mul_left_of_dvd (rowSize_aligned h.kind).2 _)

/-- What the map tells of a table is its section. -/
theorem entry (h : p.Tabular) (aligned : 4 ∣ start) :
    MapEntry.told ⟨p.kind, p.items.length, start⟩ = Section.entry ⟨p.kind, p.blocks start⟩ := by
  obtain ⟨four, _⟩ := rowSize_aligned h.kind
  obtain ⟨kind, items⟩ := p
  cases items with
  | nil => rfl
  | cons row items =>
    have gap : padding kind.alignment start = 0 := padding_of_dvd (four ▸ aligned)
    simp [MapEntry.told, Section.entry, Section.first, Batch.blocks, blocksFrom, gap]

end Batch.Tabular

variable {start : Nat} {batches : List Batch}

/-- Tables stand one behind another without gaps. -/
theorem bytesFrom_tables (tabular : ∀ p ∈ batches, p.Tabular) (aligned : 4 ∣ start) :
    bytesFrom start batches = (batches.map fun p => p.items.flatten).flatten := by
  induction batches generalizing start with
  | nil => rfl
  | cons p batches ih =>
    have table := tabular p List.mem_cons_self
    rw [bytesFrom, table.bytes aligned,
      ih (fun q hq => tabular q (List.mem_cons_of_mem _ hq)) (table.next aligned), List.map_cons,
      List.flatten_cons]

/-- What the map tells of all tables are their sections. -/
theorem tableEntries_told (tabular : ∀ p ∈ batches, p.Tabular) (aligned : 4 ∣ start) :
    (tableEntries start (batches.map fun p => (p.kind, p.items.length))).map MapEntry.told
      = (sectionsFrom start batches).map Section.entry := by
  induction batches generalizing start with
  | nil => rfl
  | cons p batches ih =>
    have table := tabular p List.mem_cons_self
    rw [List.map_cons, tableEntries, List.map_cons, table.entry aligned, ← table.stop aligned,
      ih (fun q hq => tabular q (List.mem_cons_of_mem _ hq)) (table.next aligned), sectionsFrom,
      List.map_cons]

end Tables

end StubJar.Container
