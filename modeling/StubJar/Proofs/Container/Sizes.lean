import Mathlib.Algebra.BigOperators.Ring.List
import Mathlib.Algebra.Order.BigOperators.Group.List
import StubJar.Proofs.Container.ClassRows

/-!
# How much room a container takes

Whatever a file lists takes a limited number of bytes in its container, however the tables
number it and wherever it stands. `roomOf` adds these numbers up from the file alone, the
zeros between the items among them, and no container of the file is longer
(`Writes.length_le_room`). Where they fit into 32 bits, so does every size and offset.

The numbers are round. What counts is that each is paid by one part of the file: a string
by the mention that brings it, a set of annotations by the class or the member that has it,
and a value by itself, so that no two items are paid by the same part.
-/

namespace StubJar.Container

open StubJar.Bytes StubJar.Dalvik StubJar.Order

/-! ## Sums -/

section Sums

variable {α β : Type} {xs : List α}

/-- Some of the items, each once, weigh no more than all of them. -/
theorem sum_le_of_subset {g : α → Nat} {ys : List α} (nodup : xs.Nodup) (subset : xs ⊆ ys) :
    (xs.map g).sum ≤ (ys.map g).sum := by
  obtain ⟨zs, perm, sublist⟩ := List.subperm_of_subset nodup subset
  rw [← (perm.map g).sum_eq]
  exact (sublist.map g).sum_le_sum fun _ _ => Nat.zero_le _

/-- Pieces weigh as much as what they are pieces of. -/
theorem sum_flatMap (f : α → List β) (g : β → Nat) :
    ((xs.flatMap f).map g).sum = (xs.map fun x => ((f x).map g).sum).sum := by
  induction xs with
  | nil => rfl
  | cons x xs ih => simp [ih]

/-- What is made of items weighs no more than they do. -/
theorem sum_filterMap_le {f : α → Option β} {g : β → Nat} {h : α → Nat}
    (each : ∀ x ∈ xs, ∀ y, f x = some y → g y ≤ h x) :
    ((xs.filterMap f).map g).sum ≤ (xs.map h).sum := by
  induction xs with
  | nil => exact Nat.zero_le _
  | cons x xs ih =>
    have rest := ih fun y hy => each y (List.mem_cons_of_mem _ hy)
    have head := each x List.mem_cons_self
    rw [List.filterMap_cons, List.map_cons, List.sum_cons]
    cases found : f x with
    | none => exact Nat.le_trans rest (Nat.le_add_left _ _)
    | some y => exact Nat.add_le_add (head y found) rest

/-- Narrow pieces are no longer than their number times their width. -/
theorem length_flatMap_le {form : α → List β} {width : Nat}
    (each : ∀ x ∈ xs, (form x).length ≤ width) : (xs.flatMap form).length ≤ xs.length * width := by
  induction xs with
  | nil => exact Nat.zero_le _
  | cons x xs ih =>
    have head := each x List.mem_cons_self
    have rest := ih fun y hy => each y (List.mem_cons_of_mem _ hy)
    rw [List.flatMap_cons, List.length_append, List.length_cons, Nat.succ_mul]
    omega

end Sums

/-! ## Values -/

section Values

variable {p : Pool}

/-- A number takes up to five bytes. -/
theorem length_uleb_le (n : Nat) : (uleb n).length ≤ 5 := Leb128.length_groups_le 5 _

/-- Behind the byte that says how many there are, a value has eight bytes of its own at
most. -/
theorem length_withSize_le (kind : ValueKind) {bytes : List UInt8} (few : bytes.length ≤ 8) :
    (withSize kind bytes).length ≤ 9 := Nat.succ_le_succ few

/-- A count takes up to five bytes in front of its items. -/
theorem length_counted_le (forms : List (List UInt8)) :
    (counted forms).length ≤ 5 + forms.flatten.length := by
  rw [counted, List.length_append]
  exact Nat.add_le_add_right (length_uleb_le _) _

/-- Elements are as long as their values and names. -/
theorem length_orderedElements_le (elements : List (Nat × List UInt8)) :
    (orderedElements elements).flatten.length ≤ (elements.map fun e => 5 + e.2.length).sum := by
  have perm := (sortOn_perm (fun e : Nat × List UInt8 => [e.1]) elements).map fun e => 5 + e.2.length
  rw [← perm.sum_eq, orderedElements, List.length_flatten, List.map_map]
  refine List.sum_le_sum fun e _ => ?_
  have name := length_uleb_le e.1
  simp only [Function.comp, List.length_append]
  omega

-- The five bytes beside a value are those of the index of its name.
mutual

/-- A value takes sixteen bytes for each part, its name among them if it has one. -/
theorem length_encodeValue_le_parts (v : Value) :
    5 + (encodeValue p v).length ≤ 16 * v.parts.length := by
  have alone {bytes : List UInt8} (few : bytes.length ≤ 9) : 5 + bytes.length ≤ 16 * [v].length := by
    simp only [List.length_singleton]
    omega
  cases v with
  | byte v => exact alone (length_withSize_le _ (Nat.le_add_left 1 7))
  | short v | int v | long v => exact alone (length_withSize_le _ (length_shortestSigned _).2)
  | char u => exact alone (length_withSize_le _ (length_shortestUnsigned _).2)
  | float bits | double bits =>
    exact alone (length_withSize_le _ (length_dropLowZeros (List.cons_ne_nil _ _) (by simp)).2)
  | methodType | methodHandle | string | type | field | method | enum =>
    exact alone (length_withSize_le _ (length_shortestUnsigned _).2)
  | array items =>
    have each := length_encodeValues_le_parts items
    have whole := length_counted_le (encodeValues p items)
    simp only [encodeValue, Value.parts, List.length_cons]
    omega
  | nested d elements =>
    have each := length_encodeElements_le_parts elements
    have inOrder := length_orderedElements_le (encodeElements p elements)
    have whole := length_counted_le (orderedElements (encodeElements p elements))
    have type := length_uleb_le (p.type d)
    simp only [encodeValue, Value.parts, List.length_cons, List.length_append]
    omega
  | null | boolean => exact alone (by decide : 1 ≤ 9)

/-- The items of an array take up to 16 bytes for each part. -/
theorem length_encodeValues_le_parts (items : List Value) :
    (encodeValues p items).flatten.length ≤ 16 * (Value.allParts items).length := by
  cases items with
  | nil => exact Nat.zero_le _
  | cons v items =>
    have first := length_encodeValue_le_parts v
    have rest := length_encodeValues_le_parts items
    simp only [encodeValues, Value.allParts, List.flatten_cons, List.length_append]
    omega

/-- So do the elements of an annotation. -/
theorem length_encodeElements_le_parts (elements : List (String × Value)) :
    ((encodeElements p elements).map fun e => 5 + e.2.length).sum
      ≤ 16 * (Value.elementParts elements).length := by
  cases elements with
  | nil => exact Nat.zero_le _
  | cons e elements =>
    obtain ⟨name, v⟩ := e
    have first := length_encodeValue_le_parts v
    have rest := length_encodeElements_le_parts elements
    simp only [encodeElements, Value.elementParts, List.map_cons, List.sum_cons, List.length_append]
    omega

end

end Values

/-! ## Runs -/

/-- Padding is shorter than the alignment. -/
theorem padding_le {alignment : Nat} (positive : 0 < alignment) (n : Nat) :
    padding alignment n ≤ alignment - 1 := Nat.le_sub_one_of_lt (Nat.mod_lt _ positive)

/-- Items take their bytes and the padding in front of each. -/
theorem length_filledFrom_le {alignment : Nat} (positive : 0 < alignment) (start : Nat)
    (items : List (List UInt8)) : (filledFrom alignment start items).length
      ≤ (items.map fun item => item.length + (alignment - 1)).sum := by
  induction items generalizing start with
  | nil => exact Nat.zero_le _
  | cons item items ih =>
    have gap := padding_le positive start
    have rest := ih (start + padding alignment start + item.length)
    simp only [filledFrom, List.length_append, List.length_replicate, List.map_cons, List.sum_cons]
    omega

/-- A run has the bytes of its items and the zeros that align them. -/
theorem Run.length_ofItems_le (kind : ItemKind) (start : Nat) (items : List (List UInt8)) :
    (Run.ofItems kind start items).bytes.toList.length
      ≤ (items.map fun item => item.length + (kind.alignment - 1)).sum := by
  rw [Run.bytes_ofItems ⟨kind, items⟩]
  exact length_filledFrom_le (alignment_pos kind) start items

/-! ## The room of a file -/

/-- Its row, and its text behind its length and in front of a zero byte. -/
def stringRoom (s : String) : Nat := 4 + 5 + (Text.ModifiedUtf8.encode s).length + 1

/-- A list of types of two bytes each, behind their number. -/
def typesRoom (types : List Descriptor) : Nat := 4 + 2 * types.length + 3

/-- The rows that a mention brings, with what they point at. -/
def mentionRoom (m : Mention) : Nat :=
  (m.strings.map stringRoom).sum + 4 * m.types.length
    + (m.prototypes.map fun q => 12 + typesRoom q.parameters).sum
    + 8 * m.fields.length + 8 * m.methods.length + 8 * m.handles.length

/-- An annotation and its offset in its set. -/
def annotationRoom (a : Annotation) : Nat := 4 + (11 + 16 * a.values.length)

/-- A set of annotations behind their number. -/
def setRoom (annotations : List Annotation) : Nat :=
  4 + (annotations.map annotationRoom).sum + 3

/-- A field among the members of its class and in its directory, with its initial value and
its annotations. -/
def fieldRoom (x : Field) : Nat :=
  10 + 8 + 16 * (x.initial.elim 1 fun v => v.parts.length) + setRoom x.annotations

/-- A body that is written, behind its sizes. -/
def bodyRoom (body : Body) : Nat := 16 + 2 * body.units.length + 3

/-- A method among the members of its class and in its directory, with its body and its
annotations. -/
def methodRoom (m : Method) : Nat :=
  15 + 16 + m.body.elim 0 bodyRoom + setRoom m.annotations
    + (4 + 4 * m.parameterAnnotations.length + 3) + (m.parameterAnnotations.map setRoom).sum

/-- The row of a class, and all that it points at. -/
def classRoom (c : ClassDecl) : Nat :=
  32 + typesRoom c.interfaces + 5 + setRoom c.annotations + (16 + 3) + 20
    + (c.fields.map fieldRoom).sum + (c.methods.map methodRoom).sum

/-- The map, of which the kinds of items are the rows. -/
def mapRoom : Nat := 3 + 4 + 12 * 18

/-- The header, the map, and the room of all that the file lists and mentions. -/
def roomOf (f : File) : Nat :=
  headerSize + mapRoom + (f.classes.map classRoom).sum + (f.mentions.map mentionRoom).sum

/-! ## The tables -/

section Tables

variable {α : Type} [BEq α] [LawfulBEq α] [Hashable α]

/-- What is listed twice is paid twice, but stands in a table once. -/
theorem sum_items_le (key : α → Key) (g : α → Nat) (ms : List Mention) (of : Mention → List α) :
    ((Table.ofItems key (ms.flatMap of)).items.map g).sum
      ≤ (ms.map fun m => ((of m).map g).sum).sum := by
  rw [← sum_flatMap]
  exact sum_le_of_subset (Table.nodup_items _ _) fun a mem => (Table.mem_items _).mp mem

/-- A table has no more items than are mentioned. -/
theorem size_ofItems_le (key : α → Key) (ms : List Mention) (of : Mention → List α) :
    (Table.ofItems key (ms.flatMap of)).size ≤ (ms.map fun m => (of m).length).sum := by
  have bound := sum_items_le key (fun _ => 1) ms of
  simpa [Table.size] using bound

end Tables

/-! ## The items of classes -/

section Classes

variable {f : File} {c : Placed}

/-- What each placed class pays, the classes pay. -/
theorem sum_placed_le {g : Placed → Nat} {room : ClassDecl → Nat}
    (each : ∀ c ∈ placedOf f, g c ≤ room c.type) :
    ((placedOf f).map g).sum ≤ (f.classes.map room).sum := by
  have types : (placedOf f).map Placed.type = f.classes := by
    rw [placedOf, placeClasses, List.map_map]
    exact List.zipIdx_map_fst 0 f.classes
  have bound := List.sum_le_sum each
  rwa [← types, List.map_map]

/-- So it is with items that some classes lack. -/
theorem length_ofOptional_le {kind : ItemKind} {start : Nat} {form? : Placed → Option (List UInt8)}
    {room : ClassDecl → Nat} (each : ∀ c ∈ placedOf f, ∀ item, form? c = some item →
      item.length + (kind.alignment - 1) ≤ room c.type) :
    (Run.ofOptional kind start ((placedOf f).map form?)).1.bytes.toList.length
      ≤ (f.classes.map room).sum := by
  rw [Run.fst_ofOptional]
  refine (Run.length_ofItems_le _ _ _).trans ?_
  refine Nat.le_trans (sum_filterMap_le each) ?_
  exact sum_placed_le fun _ _ => Nat.le_refl _

/-- The fields of a class that is placed weigh as much as those of the class. -/
theorem sum_fields (hc : c ∈ placedOf f) (g : Field → Nat) :
    (c.members.fields.map fun x => g x.2).sum = (c.type.fields.map g).sum := by
  rw [(mem_placedOf.mp hc).2, ((fields_perm _ _).map _).sum_eq, List.map_map]
  rfl

theorem sum_methods (hc : c ∈ placedOf f) (g : Method → Nat) :
    (c.members.methods.map fun x => g x.2).sum = (c.type.methods.map g).sum := by
  rw [(mem_placedOf.mp hc).2, ((methods_perm _ _).map _).sum_eq, List.map_map]
  rfl

theorem length_fields (hc : c ∈ placedOf f) : c.members.fields.length = c.type.fields.length := by
  simpa using sum_fields hc fun _ => 1

theorem length_methods (hc : c ∈ placedOf f) : c.members.methods.length = c.type.methods.length := by
  simpa using sum_methods hc fun _ => 1

/-- The values that are given take part in those of all static fields. -/
theorem parts_initialValues_le (m : Members) : (Value.allParts m.initialValues).length
    ≤ (m.statics.map fun x => x.2.initial.elim 1 fun v => v.parts.length).sum := by
  have sublist := (List.dropWhile_sublist (l := m.statics.reverse)
    fun x : Nat × Field => x.2.initial.isNone).reverse
  rw [List.reverse_reverse] at sublist
  refine Nat.le_trans (Nat.le_of_eq ?_)
    ((sublist.map fun x => x.2.initial.elim 1 fun v => v.parts.length).sum_le_sum
      fun _ _ => Nat.zero_le _)
  rw [Value.allParts_eq, List.length_flatMap, Members.initialValues, List.map_map]
  refine congrArg List.sum (List.map_congr_left fun x _ => ?_)
  cases given : x.2.initial with
  | some v => simp [given]
  | none =>
    simp only [Function.comp, given, Option.getD_none, Option.elim_none]
    rw [Value.default]
    split <;> rfl

/-- The initial values are paid by the fields that they belong to. -/
theorem length_arrays_le (f : File) : (layoutOf f).arrays.bytes.toList.length ≤ (f.classes.map fun c =>
    5 + (c.fields.map fun x => 16 * (x.initial.elim 1 fun v => v.parts.length)).sum).sum := by
  refine length_ofOptional_le fun c hc item made => ?_
  dsimp only at made
  split at made
  · cases made
  · obtain rfl := Option.some.inj made
    have whole := length_counted_le (encodeValues (poolOf f) c.members.initialValues)
    have parts := length_encodeValues_le_parts (p := poolOf f) c.members.initialValues
    have given := parts_initialValues_le c.members
    have fields := sum_fields hc fun x => 16 * (x.initial.elim 1 fun v => v.parts.length)
    rw [Members.fields, List.map_append, List.sum_append, List.sum_map_mul_left,
      List.sum_map_mul_left] at fields
    simp only [encodeArray, ItemKind.alignment]
    omega

/-- The sets of a class are those of the class, of its members and of their parameters. -/
theorem sum_owned_le (f : File) : ((owned f).map fun x => setRoom x.2).sum ≤ (f.classes.map fun c =>
    setRoom c.annotations + (c.fields.map fun x => setRoom x.annotations).sum
      + (c.methods.map fun m => setRoom m.annotations + (m.parameterAnnotations.map setRoom).sum).sum).sum := by
  rw [owned, sum_flatMap]
  refine sum_placed_le fun c hc => ?_
  have parameters (x : Nat × Method) : ((Placed.parameterSets c.position x.1 x.2).map
      fun x => setRoom x.2).sum = (x.2.parameterAnnotations.map setRoom).sum := by
    rw [Placed.parameterSets, List.map_map]
    have sets := congrArg (fun sets => (sets.map setRoom).sum)
      (List.zipIdx_map_fst 0 x.2.parameterAnnotations)
    rwa [List.map_map] at sets
  have fields := sum_fields hc fun x => setRoom x.annotations
  have methods := sum_methods hc fun m =>
    setRoom m.annotations + (m.parameterAnnotations.map setRoom).sum
  refine Nat.le_trans ((List.filter_sublist.map fun x : SetOwner × List Annotation =>
    setRoom x.2).sum_le_sum fun _ _ => Nat.zero_le _) (Nat.le_of_eq ?_)
  rw [← fields, ← methods, List.sum_map_add]
  simp only [List.map_append, List.sum_append, List.map_map, sum_flatMap, List.map_cons, List.map_nil,
    List.sum_cons, List.sum_nil, parameters, Function.comp_def]
  omega

/-- A list of offsets has four bytes for each, and four in front. -/
theorem length_offsetList (offsets : List Nat) : (offsetList offsets).length = 4 + 4 * offsets.length := by
  rw [offsetList, List.length_append, length_le, length_flatMap_of fun _ _ => length_le 4 _,
    Nat.mul_comm]

/-- Lists of offsets take no more than their groups ask for. -/
theorem sum_offsetsByGroup_le {α : Type} (groups : List (List α)) (offsets : List Nat) :
    ((offsetsByGroup groups offsets).map fun l => 4 + 4 * l.length + 3).sum
      ≤ (groups.map fun group => 4 + 4 * group.length + 3).sum := by
  induction groups generalizing offsets with
  | nil => exact Nat.le_refl _
  | cons group groups ih =>
    have rest := ih (offsets.drop group.length)
    have few := List.length_take_le group.length offsets
    simp only [offsetsByGroup, List.map_cons, List.sum_cons]
    omega

/-- An annotation takes up to 16 bytes for each part. -/
theorem length_encodeAnnotationItem_le {p : Pool} (a : Annotation) :
    (encodeAnnotationItem p a).length ≤ 11 + 16 * a.values.length := by
  have type := length_uleb_le (p.type a.type)
  have whole := length_counted_le (orderedElements (encodeElements p a.elements))
  have inOrder := length_orderedElements_le (encodeElements p a.elements)
  have each := length_encodeElements_le_parts (p := p) a.elements
  simp only [encodeAnnotationItem, Annotation.values, List.length_cons, List.length_append]
  omega

/-- Annotations and the sets they form. -/
theorem length_sets_le (f : File) : (layoutOf f).annotations.items.bytes.toList.length
    + (layoutOf f).annotations.sets.bytes.toList.length
      ≤ ((owned f).map fun x => setRoom x.2).sum := by
  have items : (layoutOf f).annotations.items.bytes.toList.length
      ≤ ((((owned f).map fun x => orderedSet (poolOf f) x.2).flatten.map
        (encodeAnnotationItem (poolOf f))).map fun item => item.length + 0).sum :=
    Run.length_ofItems_le .annotationItem _ _
  have sets : (layoutOf f).annotations.sets.bytes.toList.length
      ≤ (((offsetsByGroup ((owned f).map fun x => orderedSet (poolOf f) x.2)
        (layoutOf f).annotations.items.offsets.toList).map offsetList).map
          fun item => item.length + 3).sum :=
    Run.length_ofItems_le .annotationSet _ _
  have groups := sum_offsetsByGroup_le ((owned f).map fun x => orderedSet (poolOf f) x.2)
    (layoutOf f).annotations.items.offsets.toList
  rw [List.map_map, ← List.flatMap_def, sum_flatMap] at items
  simp only [List.map_map, Function.comp_def, length_offsetList] at sets groups
  have each : ((owned f).map fun x => ((orderedSet (poolOf f) x.2).map fun a =>
      (encodeAnnotationItem (poolOf f) a).length + 0).sum + (4 + 4 * (orderedSet (poolOf f) x.2).length + 3)).sum
        ≤ ((owned f).map fun x => setRoom x.2).sum := by
    refine List.sum_le_sum fun x _ => ?_
    have perm := (sortOn_perm (fun a : Annotation => [(poolOf f).type a.type]) x.2).map fun a =>
      (encodeAnnotationItem (poolOf f) a).length + 0
    have fit : (x.2.map fun a => (encodeAnnotationItem (poolOf f) a).length + 0).sum
        ≤ (x.2.map fun a => 11 + 16 * a.values.length).sum :=
      List.sum_le_sum fun a _ => length_encodeAnnotationItem_le a
    have room : (x.2.map annotationRoom).sum
        = x.2.length * 4 + (x.2.map fun a => 11 + 16 * a.values.length).sum := by
      rw [← List.sum_replicate_nat, ← List.map_const', ← List.sum_map_add]
      rfl
    rw [orderedSet, perm.sum_eq, length_sortOn, setRoom, room]
    omega
  rw [List.sum_map_add] at each
  simp only [Function.comp_def] at items
  omega

/-- The lists of the sets of parameters. -/
theorem length_lists_le (f : File) : (layoutOf f).annotations.lists.bytes.toList.length
    ≤ (f.classes.map fun c =>
      (c.methods.map fun m => 4 + 4 * m.parameterAnnotations.length + 3).sum).sum := by
  have run : (layoutOf f).annotations.lists.bytes.toList.length
      ≤ (((parameterListsOf f).map Prod.snd).map fun item => item.length + 3).sum :=
    Run.length_ofItems_le .annotationSetRefList _ _
  refine Nat.le_trans run ?_
  rw [List.map_map, parameterListsOf, sum_flatMap]
  refine sum_placed_le fun c hc => ?_
  rw [← sum_methods hc]
  refine sum_filterMap_le fun x _ list made => ?_
  obtain ⟨i, m⟩ := x
  obtain ⟨key, item⟩ := list
  obtain ⟨_, _, rfl⟩ := Legible.parameterList_eq_some.mp made
  simp [length_offsetList]

/-- The directories. -/
theorem length_directories_le (f : File) : (layoutOf f).annotations.directories.bytes.toList.length
    ≤ (f.classes.map fun c => 16 + 8 * c.fields.length + 16 * c.methods.length + 3).sum := by
  refine length_ofOptional_le fun c hc item made => ?_
  have few {α : Type} (members : List (Nat × α)) (find? : Nat → Option Nat) :
      (AnnotationLayout.directoryEntries members find?).length ≤ members.length := by
    rw [AnnotationLayout.directoryEntries, length_sortOn]
    exact List.length_filterMap_le _ _
  have fields := few c.members.fields fun i => (setOffsetsOf f)[SetOwner.field c.position i]?
  have methods := few c.members.methods fun i => (setOffsetsOf f)[SetOwner.method c.position i]?
  have parameters := few c.members.methods fun i => (listOffsetsOf f)[(c.position, i)]?
  rw [length_fields hc] at fields
  rw [length_methods hc] at methods parameters
  change AnnotationLayout.directory? (setOffsetsOf f) (listOffsetsOf f) c = some item at made
  rw [AnnotationLayout.directory?] at made
  split at made
  · cases made
  · obtain rfl := Option.some.inj made
    simp only [List.length_append, List.flatMap_append, length_le, length_entries, ItemKind.alignment]
    omega

/-- The bodies. -/
theorem length_code_le (f : File) : (layoutOf f).code.bytes.toList.length
    ≤ (f.classes.map fun c => (c.methods.map fun m => m.body.elim 0 bodyRoom).sum).sum := by
  have run : (layoutOf f).code.bytes.toList.length
      ≤ (((bodies (placedOf f)).map fun x => encodeBody x.2.2).map fun item => item.length + 3).sum :=
    Run.length_ofItems_le .code _ _
  refine Nat.le_trans run ?_
  rw [List.map_map, bodies, sum_flatMap]
  refine sum_placed_le fun c hc => ?_
  rw [← sum_methods hc]
  refine sum_filterMap_le fun x _ body found => ?_
  obtain ⟨b, has, rfl⟩ := Option.map_eq_some_iff.mp found
  simp [has, encodeBody, bodyRoom, length_flatMap_of fun _ _ => length_le 2 _]
  omega

/-- Members take up to five bytes for each distance. -/
theorem length_encodeMembers_le {α : Type} {form : Nat → α → List UInt8} {width : Nat}
    (narrow : ∀ i a, (form i a).length ≤ width) (members : List (Nat × α)) :
    (encodeMembers form members).length ≤ members.length * (5 + width) := by
  have each : ∀ x ∈ members.zip (0 :: members.map Prod.fst),
      (uleb (x.1.1 - x.2) ++ form x.1.1 x.1.2).length ≤ 5 + width := fun x _ => by
    have distance := length_uleb_le (x.1.1 - x.2)
    have about := narrow x.1.1 x.1.2
    rw [List.length_append]
    omega
  have zipped : (members.zip (0 :: members.map Prod.fst)).length = members.length := by simp
  have bound := length_flatMap_le each
  rwa [zipped] at bound

/-- The members. -/
theorem length_classData_le (f : File) : (layoutOf f).classData.bytes.toList.length
    ≤ (f.classes.map fun c => 20 + 10 * c.fields.length + 15 * c.methods.length).sum := by
  refine length_ofOptional_le fun c hc item made => ?_
  have fields := length_fields hc
  have methods := length_methods hc
  rw [Members.fields, List.length_append] at fields
  rw [Members.methods, List.length_append] at methods
  have narrow_field (i : Nat) (x : Field) : (encodeField i x).length ≤ 5 := length_uleb_le _
  have narrow_method (i : Nat) (m : Method) : (encodeMethod (codeOffsetsOf f) i m).length ≤ 10 := by
    have flags := length_uleb_le m.flags.bits.toNat
    have code := length_uleb_le ((codeOffsetsOf f).getD i 0)
    rw [encodeMethod, List.length_append]
    omega
  have statics := length_encodeMembers_le narrow_field c.members.statics
  have instances := length_encodeMembers_le narrow_field c.members.instances
  have directs := length_encodeMembers_le narrow_method c.members.directs
  have virtuals := length_encodeMembers_le narrow_method c.members.virtuals
  have count_statics := length_uleb_le c.members.statics.length
  have count_instances := length_uleb_le c.members.instances.length
  have count_directs := length_uleb_le c.members.directs.length
  have count_virtuals := length_uleb_le c.members.virtuals.length
  change encodeClassData? (codeOffsetsOf f) c.members = some item at made
  rw [encodeClassData?] at made
  split at made
  · cases made
  · obtain rfl := Option.some.inj made
    simp only [List.length_append, ItemKind.alignment]
    omega

end Classes

/-! ## The whole -/

/-- The lists of types, paid by the prototypes and the classes that have them. -/
theorem length_typeLists_le (f : File) : (layoutOf f).typeLists.bytes.toList.length
    ≤ ((poolOf f).prototypes.items.map fun q => typesRoom q.parameters).sum
      + (f.classes.map fun c => typesRoom c.interfaces).sum := by
  have run : (layoutOf f).typeLists.bytes.toList.length
      ≤ (((typeLists (poolOf f) f.classes).map encodeTypeList).map fun item => item.length + 3).sum :=
    Run.length_ofItems_le .typeList _ _
  have room (indices : List Nat) : (encodeTypeList indices).length = 4 + 2 * indices.length := by
    rw [encodeTypeList, List.length_append, length_le, length_flatMap_of fun _ _ => length_le 2 _,
      Nat.mul_comm]
  simp only [List.map_map, Function.comp_def, room] at run
  refine Nat.le_trans run (Nat.le_trans (sum_le_of_subset (nodup_distinct _)
    fun l mem => List.mem_of_mem_filter (mem_distinct.mp mem)) (Nat.le_of_eq ?_))
  simp only [List.map_append, List.sum_append, List.map_map, Function.comp_def, List.length_map,
    typesRoom]

/-- The strings with their rows. -/
theorem length_strings_le (f : File) : (poolOf f).strings.size * 4
    + (layoutOf f).strings.bytes.toList.length ≤ ((poolOf f).strings.items.map stringRoom).sum := by
  have run : (layoutOf f).strings.bytes.toList.length
      ≤ (((poolOf f).strings.items.map encodeString).map fun item => item.length + 0).sum :=
    Run.length_ofItems_le .stringData _ _
  have each : ((poolOf f).strings.items.map fun s => 4 + (encodeString s).length).sum
      ≤ ((poolOf f).strings.items.map stringRoom).sum := by
    refine List.sum_le_sum fun s _ => ?_
    have length := length_uleb_le (Text.units s).length
    simp only [encodeString, stringRoom, List.length_append, List.length_singleton]
    omega
  rw [List.sum_map_add, List.map_const', List.sum_replicate_nat] at each
  simp only [List.map_map, Function.comp_def, Nat.add_zero] at run
  rw [Table.size]
  omega

/-- What the tables hold is paid by what brings it. -/
theorem sum_tables_le (f : File) : ((poolOf f).strings.items.map stringRoom).sum
    + (poolOf f).types.size * 4 + (poolOf f).prototypes.size * 12
    + ((poolOf f).prototypes.items.map fun q => typesRoom q.parameters).sum
    + (poolOf f).fields.size * 8 + (poolOf f).methods.size * 8 + (poolOf f).handles.size * 8
      ≤ (f.mentions.map mentionRoom).sum := by
  have strings : ((poolOf f).strings.items.map stringRoom).sum ≤ _ :=
    sum_items_le _ stringRoom f.mentions Mention.strings
  have types : (poolOf f).types.size ≤ _ := size_ofItems_le _ f.mentions Mention.types
  have prototypes : ((poolOf f).prototypes.items.map fun q => 12 + typesRoom q.parameters).sum ≤ _ :=
    sum_items_le _ _ f.mentions Mention.prototypes
  have fields : (poolOf f).fields.size ≤ _ := size_ofItems_le _ f.mentions Mention.fields
  have methods : (poolOf f).methods.size ≤ _ := size_ofItems_le _ f.mentions Mention.methods
  have handles : (poolOf f).handles.size ≤ _ := size_ofItems_le _ f.mentions Mention.handles
  have rows : ((poolOf f).prototypes.items.map fun _ => 12).sum = (poolOf f).prototypes.size * 12 := by
    rw [List.map_const', List.sum_replicate_nat]
    rfl
  unfold mentionRoom
  simp only [List.sum_map_add, List.sum_map_mul_left, rows] at prototypes ⊢
  omega

/-- There are eighteen kinds of items, and the map has a row for those that occur. -/
theorem length_map_le (f : File) : (encodeMap (layoutOf f).map).length ≤ 4 + 12 * 18 := by
  have rows : (layoutOf f).map.length ≤ 18 := by
    have occurring := List.length_filter_le (fun e : MapEntry => decide (0 < e.size))
      ((layoutOf f).tables ++ (layoutOf f).runs.map Run.mapEntry)
    have all : ((layoutOf f).tables ++ (layoutOf f).runs.map Run.mapEntry).length = 16 := rfl
    rw [Layout.map, List.length_append, List.length_cons, List.length_singleton]
    omega
  have width (e : MapEntry) : e.encode.length = 12 := by
    simp only [MapEntry.encode, List.length_append, length_le]
  rw [encodeMap, List.length_append, length_le, length_flatMap_of fun e _ => width e]
  omega

/-- The room for classes is that of their rows, lists, values, annotations and members. -/
theorem sum_classRoom (classes : List ClassDecl) : (classes.map classRoom).sum =
    classes.length * 32 + (classes.map fun c => typesRoom c.interfaces).sum
      + (classes.map fun c =>
        5 + (c.fields.map fun x => 16 * (x.initial.elim 1 fun v => v.parts.length)).sum).sum
      + (classes.map fun c => setRoom c.annotations + (c.fields.map fun x => setRoom x.annotations).sum
        + (c.methods.map fun m =>
          setRoom m.annotations + (m.parameterAnnotations.map setRoom).sum).sum).sum
      + (classes.map fun c =>
        (c.methods.map fun m => 4 + 4 * m.parameterAnnotations.length + 3).sum).sum
      + (classes.map fun c => 16 + 8 * c.fields.length + 16 * c.methods.length + 3).sum
      + (classes.map fun c => (c.methods.map fun m => m.body.elim 0 bodyRoom).sum).sum
      + (classes.map fun c => 20 + 10 * c.fields.length + 15 * c.methods.length).sum := by
  rw [← List.sum_replicate_nat, ← List.map_const']
  simp only [← List.sum_map_add]
  refine congrArg List.sum (List.map_congr_left fun c _ => ?_)
  unfold classRoom fieldRoom methodRoom
  simp only [List.sum_map_add, List.map_const', List.sum_replicate_nat]
  omega

/-- A container takes no more than the room for its file. -/
theorem sizeOf_le_room (f : File) : sizeOf f ≤ roomOf f := by
  have classes := sum_classRoom f.classes
  have tables := sum_tables_le f
  have lists := length_typeLists_le f
  have arrays := length_arrays_le f
  have sets := Nat.le_trans (length_sets_le f) (sum_owned_le f)
  have parameters := length_lists_le f
  have directories := length_directories_le f
  have code := length_code_le f
  have members := length_classData_le f
  have strings := length_strings_le f
  have map := length_map_le f
  have pad := padding_le (by decide : 0 < 4) (layoutOf f).strings.stop
  have start : (layoutOf f).dataStart = headerSize + ((poolOf f).strings.size * 4
      + ((poolOf f).types.size * 4 + ((poolOf f).prototypes.size * 12 + ((poolOf f).fields.size * 8
      + ((poolOf f).methods.size * 8 + (f.classes.length * 32 + ((poolOf f).handles.size * 8 + 0))))))) :=
    rfl
  have data : (layoutOf f).data.length = ((layoutOf f).runs.map fun r => r.bytes.toList.length).sum
      + padding 4 (layoutOf f).strings.stop + (encodeMap (layoutOf f).map).length := by
    rw [Layout.data, List.length_append, List.length_append, List.length_replicate, List.length_flatMap]
  simp only [Layout.runs, AnnotationLayout.runs, List.map_append, List.sum_append, List.map_cons,
    List.map_nil, List.sum_cons, List.sum_nil] at data
  rw [sizeOf, roomOf, mapRoom]
  omega

/-- A container is no longer than the room of its file. -/
theorem Writes.length_le_room {f : File} {order : List Nat} {b : List UInt8} (h : Writes f order b)
    (known : 35 ≤ f.version ∧ f.version ≤ 39) : b.length ≤ roomOf f :=
  Nat.le_trans (Nat.le_of_eq (h.length_known known)) (sizeOf_le_room f)

/-! ## Files that are surely written -/

/-- A file that mentions few enough things, whose prototypes have letters, and whose bodies
another container can hold. -/
structure Modest (f : File) : Prop where
  letters : ∀ q ∈ f.mentions.flatMap Mention.prototypes, q.shorty?.isSome
  types : (f.mentions.flatMap Mention.types).length ≤ 0xFFFF
  prototypes : (f.mentions.flatMap Mention.prototypes).length ≤ 0xFFFF
  fields : (f.mentions.flatMap Mention.fields).length ≤ 0x10000
  methods : (f.mentions.flatMap Mention.methods).length ≤ 0x10000
  bodies : ∀ c ∈ f.classes, ∀ m ∈ c.methods, ∀ b ∈ m.body, checkBody m b = .ok ()

namespace Modest

variable {f : File} {order : List Nat}

/-- The tables of the file can be numbered. -/
theorem collected (h : Modest f) : Pool.ofFile f = .ok (poolOf f) :=
  ofFile_eq_ok.mpr ⟨rfl, checkSizes_eq_ok.mpr ⟨(Table.size_le _ _).trans h.types,
    (Table.size_le _ _).trans h.prototypes,
    fun _ => ⟨(Table.size_le _ _).trans h.fields, (Table.size_le _ _).trans h.methods⟩⟩, h.letters⟩

/-- The file is written, with its classes in their order. -/
theorem exists_encode (h : Modest f) (ordered : Hierarchy.order f.classes = .ok order) :
    ∃ b, encode f = .ok b ∧ Writes f order b := by
  obtain ⟨_, fit, letters⟩ := ofFile_eq_ok.mp h.collected
  have writes : Writes f order _ :=
    ⟨letters, fit, Hierarchy.order_perm ordered, checkBodies_eq_ok.mpr h.bodies, rfl⟩
  exact ⟨_, encode_eq_ok.mpr ⟨order, ordered, writes⟩, writes⟩

/-- If its room is small, so is the container. -/
theorem exists_small (h : Modest f) (known : 35 ≤ f.version ∧ f.version ≤ 39)
    (room : roomOf f < 2 ^ 32) (ordered : Hierarchy.order f.classes = .ok order) :
    ∃ b, encode f = .ok b ∧ Writes f order b ∧ b.length < 2 ^ 32 := by
  obtain ⟨b, written, writes⟩ := h.exists_encode ordered
  exact ⟨b, written, writes, Nat.lt_of_le_of_lt (writes.length_le_room known) room⟩

end Modest

end StubJar.Container
