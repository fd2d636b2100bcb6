import Mathlib
import StubJar.Proofs.Container.Lookups
import StubJar.Proofs.Container.Settled
import StubJar.Proofs.Dalvik.Rearranged

/-!
# Writing what was rearranged

A file whose parts are listed in another order can be written to the same bytes
(`encode_rearranged`). Everything that has no order of its own goes through a sort:
members by their indices (`byIndex_related`), elements and annotations by the names that
normal forms are sorted by (`sameSet_of_normal`). So classes with the same parts are
written alike (`sameForm_of_sameParts`), with any tables that hold what they mention
(`encodeWith_of_sameParts`).

The tables are those of a set of mentions, which hands them out in some order. Their rows
are sorted too, but two method handles can share a key: that of a kind and of the index of a
member, which is that of a field for one of them and that of a method for the other. Then
the order of gathering shows, and a file can be written to more than one container
(`Encodes`). `encode` makes the one in which things are gathered as they are listed.
-/

namespace StubJar.Container

open StubJar.Bytes StubJar.Dalvik StubJar.Order

/-! ## Members -/

section Members

variable {ms : List Mention} {c : ClassDecl}

/-- Items that are listed once have an index of their own, if that of a reference is one. -/
theorem indices_nodup_of_refs {α ρ : Type} {ref : α → ρ} {index : ρ → Nat} {xs : List α}
    (distinct : (xs.map ref).Nodup)
    (injective : ∀ x ∈ xs, ∀ y ∈ xs, index (ref x) = index (ref y) → ref x = ref y) :
    (xs.map fun x => index (ref x)).Nodup := by
  refine List.Nodup.map_on (fun x hx y hy same => ?_) (distinct.of_map _)
  exact List.inj_on_of_nodup_map distinct hx hy (injective x hx y hy same)

/-- The fields of a class have indices of their own. -/
theorem field_indices_nodup (distinct : (c.fields.map Field.ref).Nodup) (mentioned : c.mentions ⊆ ms) :
    (c.fields.map fun x => (Pool.ofMentions ms).field x.ref).Nodup := by
  have known : ∀ x ∈ c.fields, x.ref ∈ ms.flatMap Mention.fields := fun x hx =>
    List.mem_flatMap.mpr ⟨.field x.ref, mentioned (c.field_mentions hx List.mem_cons_self),
      by simp [Mention.fields]⟩
  exact indices_nodup_of_refs distinct fun x hx y hy => Table.indexOf_injective _ (known x hx) (known y hy)

theorem method_indices_nodup (distinct : (c.methods.map Method.ref).Nodup)
    (mentioned : c.mentions ⊆ ms) :
    (c.methods.map fun x => (Pool.ofMentions ms).method x.ref).Nodup := by
  have known : ∀ x ∈ c.methods, x.ref ∈ ms.flatMap Mention.methods := fun x hx =>
    List.mem_flatMap.mpr ⟨.method x.ref, mentioned (c.method_mentions hx List.mem_cons_self),
      by simp [Mention.methods]⟩
  exact indices_nodup_of_refs distinct fun x hx y hy => Table.indexOf_injective _ (known x hx) (known y hy)

section Sorted

variable {α : Type} (normal : α → α) {index : α → Nat} (keep : α → Bool) {xs ys : List α}

/-- The normal forms of members in the order of their indices are their normal forms in that
order. -/
theorem map_byIndex_normal (same_index : ∀ x, index (normal x) = index x)
    (same_keep : ∀ x, keep (normal x) = keep x) (xs : List α) :
    (Members.byIndex ((xs.map fun x => (index x, x)).filter (keep ·.2))).map (fun e => (e.1, normal e.2))
      = Members.byIndex (((xs.map normal).map fun x => (index x, x)).filter (keep ·.2)) := by
  have forms : ((xs.map fun x => (index x, x)).filter (keep ·.2)).map (fun e => (e.1, normal e.2))
      = ((xs.map normal).map fun x => (index x, x)).filter (keep ·.2) := by
    simp only [List.filter_map, List.map_map, Function.comp_def, same_index, same_keep]
  rw [Members.byIndex, Members.byIndex, ← forms]
  exact map_sortOn _ fun _ _ _ _ => rfl

/-- Members of the same normal forms stand in the same order of their indices, if no
index is there twice. -/
theorem byIndex_related (same_index : ∀ x, index (normal x) = index x)
    (same_keep : ∀ x, keep (normal x) = keep x) (distinct : (xs.map index).Nodup)
    (perm : (xs.map normal).Perm (ys.map normal)) :
    List.Forall₂ (fun a b => a.2 ∈ xs ∧ a.1 = b.1 ∧ normal a.2 = normal b.2)
      (Members.byIndex ((xs.map fun x => (index x, x)).filter (keep ·.2)))
      (Members.byIndex ((ys.map fun y => (index y, y)).filter (keep ·.2))) := by
  have numbers : (((xs.map normal).map fun x => (index x, x)).map Prod.fst).Nodup := by
    simp only [List.map_map, Function.comp_def, same_index]
    exact distinct
  have sorted : Members.byIndex (((xs.map normal).map fun x => (index x, x)).filter (keep ·.2))
      = Members.byIndex (((ys.map normal).map fun y => (index y, y)).filter (keep ·.2)) := by
    refine sortOn_eq_of_perm ((perm.map _).filter _) fun a ha b hb equal => ?_
    exact List.inj_on_of_nodup_map numbers (List.mem_of_mem_filter ha) (List.mem_of_mem_filter hb)
      (List.cons.inj equal).1
  rw [← map_byIndex_normal normal keep same_index same_keep,
    ← map_byIndex_normal normal keep same_index same_keep] at sorted
  refine forall₂_imp_of_mem (forall₂_of_map_eq sorted) fun a ha b _ same => ⟨?_, Prod.mk.inj same⟩
  obtain ⟨x, hx, rfl⟩ := List.mem_map.mp (List.mem_of_mem_filter (mem_byIndex.mp ha))
  exact hx

end Sorted

/-- Fields of the same normal form are written alike. -/
theorem sameField_of_normal {i j : Nat} {x y : Field} (mentioned : ∀ m ∈ x.mentions, m ∈ ms)
    (index : i = j) (same : x.normal = y.normal) :
    SameField (Pool.ofMentions ms) (i, x) (j, y) where
  index := index
  flags := congrArg (·.flags) same
  annotations := sameSet_of_normal (fun a ha m hm => mentioned m (List.mem_cons_of_mem _
    (List.mem_append_right _ (List.mem_flatMap.mpr ⟨a, ha, hm⟩)))) (congrArg (·.annotations) same)

/-- So are methods. -/
theorem sameMethod_of_normal {i j : Nat} {x y : Method} (mentioned : ∀ m ∈ x.mentions, m ∈ ms)
    (index : i = j) (same : x.normal = y.normal) :
    SameMethod (Pool.ofMentions ms) (i, x) (j, y) where
  index := index
  flags := congrArg (·.flags) same
  body := congrArg (·.body) same
  annotations := sameSet_of_normal (fun a ha m hm => mentioned m (List.mem_cons_of_mem _
    (List.mem_append_left _ (List.mem_flatMap.mpr ⟨a, ha, hm⟩)))) (congrArg (·.annotations) same)
  parameters := by
    have sets : x.parameterAnnotations.map normalSet = y.parameterAnnotations.map normalSet :=
      congrArg (·.parameterAnnotations) same
    refine forall₂_imp_of_mem (forall₂_of_map_eq sets) fun as has bs _ same =>
      sameSet_of_normal (fun a ha m hm => ?_) same
    exact mentioned m (List.mem_cons_of_mem _ (List.mem_append_right _
      (List.mem_flatMap.mpr ⟨a, List.mem_flatten.mpr ⟨as, has, ha⟩, hm⟩)))

end Members

section Classes

variable {ms : List Mention} {c d : ClassDecl}

/-- Classes with the same parts are written alike. -/
theorem sameForm_of_sameParts (same : c.SameParts d) (distinct : c.MembersDistinct)
    (mentioned : c.mentions ⊆ ms) (n : Nat) :
    SameForm (Pool.ofMentions ms) ⟨n, c, Members.ofClass (Pool.ofMentions ms) c⟩
      ⟨n, d, Members.ofClass (Pool.ofMentions ms) d⟩ := by
  have fields (keep : Field → Bool) (same_keep : ∀ x : Field, keep x.normal = keep x) :=
    byIndex_related Field.normal keep (fun _ => rfl) same_keep
      (field_indices_nodup distinct.fields mentioned) same.fields
  have methods (keep : Method → Bool) (same_keep : ∀ x : Method, keep x.normal = keep x) :=
    byIndex_related Method.normal keep (fun _ => rfl) same_keep
      (method_indices_nodup distinct.methods mentioned) same.methods
  have forms : ((Members.ofClass (Pool.ofMentions ms) c).statics.map Prod.snd).map Field.normal
      = ((Members.ofClass (Pool.ofMentions ms) d).statics.map Prod.snd).map Field.normal := by
    rw [List.map_map, List.map_map]
    exact map_eq_of_forall₂ (fields Field.isStatic fun _ => rfl) fun _ _ related => related.2.2
  have field : ∀ a b : Nat × Field, a.2 ∈ c.fields ∧ a.1 = b.1 ∧ a.2.normal = b.2.normal →
      SameField (Pool.ofMentions ms) a b := fun a b ⟨listed, index, form⟩ =>
    sameField_of_normal (fun m hm => mentioned (c.field_mentions listed hm)) index form
  have method : ∀ a b : Nat × Method, a.2 ∈ c.methods ∧ a.1 = b.1 ∧ a.2.normal = b.2.normal →
      SameMethod (Pool.ofMentions ms) a b := fun a b ⟨listed, index, form⟩ =>
    sameMethod_of_normal (fun m hm => mentioned (c.method_mentions listed hm)) index form
  exact {
    position := rfl
    interfaces := same.interfaces
    annotations := sameSet_of_normal (fun a ha m hm => mentioned (c.annotation_mentions ha hm))
      same.annotations
    statics := (fields Field.isStatic fun _ => rfl).imp field
    instances := (fields (!·.isStatic) fun _ => rfl).imp field
    directs := (methods (·.flags.isDirect) fun _ => rfl).imp method
    virtuals := (methods (!·.flags.isDirect) fun _ => rfl).imp method
    values := by
      refine encodeValues_of_normal (fun v hv m hm => mentioned (initialValues_mentioned v hv hm))
        (fun v hv m hm => mentioned (same.mem_mentions.mpr (initialValues_mentioned v hv hm))) ?_
      rw [initialValues_normal, initialValues_normal, ← initials_map_normal, forms,
        initials_map_normal] }

end Classes

/-! ## Files -/

section Files

variable {f g : File} {ms : List Mention} {b : List UInt8}

/-- Classes with the same parts are written alike where they stand. -/
theorem placed_related (same : List.Forall₂ ClassDecl.SameParts f.classes g.classes)
    (distinct : ∀ c ∈ f.classes, c.MembersDistinct) (mentioned : f.mentions ⊆ ms) :
    List.Forall₂ (SameForm (Pool.ofMentions ms)) (placeClasses (Pool.ofMentions ms) f.classes)
      (placeClasses (Pool.ofMentions ms) g.classes) := by
  have parts := forall₂_imp_of_mem same fun c hc d _ (h : c.SameParts d) =>
    sameForm_of_sameParts h (distinct c hc) fun _ hm => mentioned (mentions_of_class hc hm)
  unfold placeClasses
  generalize f.classes = cs, g.classes = ds at parts
  generalize 0 = k
  induction parts generalizing k with
  | nil => exact .nil
  | cons head _ ih =>
    rw [List.zipIdx_cons, List.zipIdx_cons, List.map_cons, List.map_cons]
    exact .cons (head k) (ih (k + 1))

/-- Bodies of the same code pass the same checks. -/
theorem checkBodies_of_related {xs ys : List (Nat × Method × Body)}
    (related : List.Forall₂ (fun a b => a.1 = b.1 ∧ a.2.2 = b.2.2) xs ys)
    (checked : checkBodies xs = .ok ()) : checkBodies ys = .ok () := by
  refine forM_eq_ok.mpr ?_
  rintro ⟨j, n, body⟩ hy
  obtain ⟨⟨i, m, body'⟩, hx, -, same⟩ := exists_of_mem_right related hy
  obtain rfl : body' = body := same
  exact checkBody_of (forM_eq_ok.mp checked _ hx)

/-- The rows of classes with the same parts are the same. -/
theorem classRows_of_sameParts (same : List.Forall₂ ClassDecl.SameParts f.classes g.classes)
    (p : Pool) (l : Layout) (order : List Nat) :
    encodeTables p l g.classes.toArray order = encodeTables p l f.classes.toArray order := by
  have rows (i : Nat) : g.classes.toArray[i]?.elim [] (l.classRow p i)
      = f.classes.toArray[i]?.elim [] (l.classRow p i) := by
    have row : f.classes.map (l.classRow p i) = g.classes.map (l.classRow p i) :=
      map_eq_of_forall₂ same fun c d (h : c.SameParts d) => by
        simp only [Layout.classRow, h.type, h.flags, h.superclass, h.interfaces, h.sourceFile]
    have stands (cs : List ClassDecl) : cs.toArray[i]?.elim [] (l.classRow p i)
        = (cs.map (l.classRow p i))[i]?.getD [] := by
      rw [List.getElem?_toArray, List.getElem?_map]
      cases cs[i]? <;> rfl
    rw [stands, stands, row]
  simp only [encodeTables, rows]

/-- Whatever tables hold what the file mentions, a file with the same parts is written
with them to the same bytes. -/
theorem encodeWith_of_sameParts (same : f.SameParts g) (distinct : ∀ c ∈ f.classes, c.MembersDistinct)
    (mentioned : f.mentions ⊆ ms) (written : encodeWith (Pool.ofMentions ms) f = .ok b) :
    encodeWith (Pool.ofMentions ms) g = .ok b := by
  have placed := placed_related same.classes distinct mentioned
  have types : f.classes.map ClassDecl.type = g.classes.map ClassDecl.type :=
    map_eq_of_forall₂ same.classes fun _ _ => ClassDecl.SameParts.type
  have parents : f.classes.map ClassDecl.parents = g.classes.map ClassDecl.parents :=
    map_eq_of_forall₂ same.classes fun _ _ => ClassDecl.SameParts.parents
  have interfaces : f.classes.map ClassDecl.interfaces = g.classes.map ClassDecl.interfaces :=
    map_eq_of_forall₂ same.classes fun _ _ => ClassDecl.SameParts.interfaces
  have layout : layoutWith (Pool.ofMentions ms) g = layoutWith (Pool.ofMentions ms) f :=
    (Layout.ofClasses_congr placed interfaces).symm
  have version : writtenVersion (Pool.ofMentions ms) g = writtenVersion (Pool.ofMentions ms) f := by
    rw [writtenVersion, writtenVersion, same.version]
  simp only [encodeWith, bind_eq_ok] at written ⊢
  obtain ⟨order, ordered, ⟨⟩, checked, bytes⟩ := written
  refine ⟨order, (Hierarchy.order_congr types parents).symm.trans ordered, (),
    checkBodies_of_related (bodies_related placed) checked, ?_⟩
  rw [layout, version, classRows_of_sameParts same.classes]
  exact bytes

end Files

/-! ## What is gathered -/

/-- The container of a file with the tables of what was gathered. The letters of prototypes
are looked at where the file lists them. -/
def encodeGathered (ms : List Mention) (f : File) : Except EncodeFault (List UInt8) :=
  match (f.mentions.flatMap Mention.prototypes).find? (·.shorty?.isNone) with
  | some p => throw (.malformedDescriptor p.render)
  | none => (Pool.ofMentions ms).checkSizes >>= fun _ => encodeWith (Pool.ofMentions ms) f

/-- What the file mentions, in any order and number. -/
def Gathers (f : File) (ms : List Mention) : Prop := ∀ m, m ∈ ms ↔ m ∈ f.mentions

/-- What writing a file can come to: its mentions are gathered in sets, and the order in
which a set hands them out is left open. -/
def Encodes (f : File) (r : Except EncodeFault (List UInt8)) : Prop :=
  ∃ ms, Gathers f ms ∧ encodeGathered ms f = r

/-- No two handles of the file have the same kind and members of the same index. -/
def HandlesApart (f : File) : Prop :=
  ∀ h ∈ f.mentions.flatMap Mention.handles, ∀ k ∈ f.mentions.flatMap Mention.handles,
    handleKey (poolOf f) h = handleKey (poolOf f) k → h = k

section Gathered

variable {f g : File} {ms : List Mention} {b : List UInt8} {r : Except EncodeFault (List UInt8)}

/-- The encoder gathers what a file mentions as it is listed. -/
theorem encode_eq_gathered (f : File) : encode f = encodeGathered f.mentions f := by
  rw [encode_eq, Pool.ofFile, encodeGathered, File.mentions]
  dsimp only
  cases ((f.classes.flatMap ClassDecl.mentions).flatMap Mention.prototypes).find?
      (·.shorty?.isNone) with
  | some q => rfl
  | none => cases (Pool.ofMentions (f.classes.flatMap ClassDecl.mentions)).checkSizes <;> rfl

/-- So what it makes is one of the things that writing the file can come to. -/
theorem encodes_encode (f : File) : Encodes f (encode f) :=
  ⟨f.mentions, fun _ => Iff.rfl, (encode_eq_gathered f).symm⟩

/-- A container is made where every prototype has letters and the tables fit. -/
theorem encodeGathered_eq_ok : encodeGathered ms f = .ok b ↔
    (∀ q ∈ f.mentions.flatMap Mention.prototypes, q.shorty?.isSome)
      ∧ (Pool.ofMentions ms).checkSizes = .ok () ∧ encodeWith (Pool.ofMentions ms) f = .ok b := by
  rw [encodeGathered]
  split
  · rename_i p found
    have none := List.find?_some found
    constructor
    · intro written
      cases written
    · rintro ⟨letters, _⟩
      have some := letters p (List.mem_of_find?_eq_some found)
      rw [Option.isNone_iff_eq_none.mp none] at some
      cases some
  · rename_i found
    have letters : ∀ q ∈ f.mentions.flatMap Mention.prototypes, q.shorty?.isSome := fun q hq =>
      Option.isSome_iff_ne_none.mpr fun none => List.find?_eq_none.mp found q hq (by rw [none]; rfl)
    rw [bind_eq_ok]
    exact ⟨fun ⟨_, sizes, written⟩ => ⟨letters, sizes, written⟩,
      fun ⟨_, sizes, written⟩ => ⟨(), sizes, written⟩⟩

/-- A file with the same parts is written to the same bytes with the tables of the same
mentions. -/
theorem encodeGathered_of_sameParts (same : f.SameParts g)
    (distinct : ∀ c ∈ f.classes, c.MembersDistinct) (gathers : Gathers f ms)
    (written : encodeGathered ms f = .ok b) : encodeGathered ms g = .ok b := by
  obtain ⟨letters, sizes, written⟩ := encodeGathered_eq_ok.mp written
  refine encodeGathered_eq_ok.mpr ⟨fun q hq => letters q ?_, sizes, ?_⟩
  · obtain ⟨m, hm, hq⟩ := List.mem_flatMap.mp hq
    exact List.mem_flatMap.mpr ⟨m, (same.mem_mentions m).mpr hm, hq⟩
  · exact encodeWith_of_sameParts same distinct (fun m hm => (gathers m).mpr hm) written

/-- So a container that one of them can be written to is one that the other can be written
to. -/
theorem encodes_of_sameParts (same : f.SameParts g) (distinct : ∀ c ∈ f.classes, c.MembersDistinct)
    (written : Encodes f (.ok b)) : Encodes g (.ok b) := by
  obtain ⟨ms, gathers, written⟩ := written
  exact ⟨ms, fun m => (gathers m).trans (same.mem_mentions m),
    encodeGathered_of_sameParts same distinct gathers written⟩

/-- Handles whose kinds go with their members are apart. -/
theorem handlesApart_of_agree (agree : ∀ h ∈ f.mentions.flatMap Mention.handles, h.Agrees) :
    HandlesApart f := fun _ hh _ hk => handleKey_injective agree hh hk

/-- So are those of a file that was read. -/
theorem handlesApart_of_sound (sound : Sound f) : HandlesApart f :=
  handlesApart_of_agree fun h mem => (HandlesAgree.flatMap.mpr fun c hc =>
    (sound.classes c hc).handles : HandlesAgree f.values) h (handle_value mem)

/-- Where the handles are apart, the order of gathering makes no difference. -/
theorem encodes_iff_of_apart (apart : HandlesApart f) : Encodes f r ↔ r = encode f := by
  have tables (ms : List Mention) (gathers : Gathers f ms) : encodeGathered ms f = encode f := by
    have same : Pool.ofMentions ms = poolOf f :=
      (Pool.ofMentions_congr_of_apart (fun m => (gathers m).symm) apart).symm
    rw [encode_eq_gathered, encodeGathered, encodeGathered, same]
    rfl
  constructor
  · rintro ⟨ms, gathers, rfl⟩
    exact tables ms gathers
  · rintro rfl
    exact encodes_encode f

end Gathered

/-- A handle that reads a static field. -/
def fieldHandle : MethodHandle := ⟨.staticGet, .field ⟨⟨"LA;"⟩, "x", ⟨"LH;"⟩⟩⟩

/-- A handle of the same kind, but with a method. -/
def strayHandle : MethodHandle := ⟨.staticGet, .method ⟨⟨"LA;"⟩, "m", ⟨⟨"V"⟩, []⟩⟩⟩

/-- A class with an annotation that has the elements, and with the methods. -/
def markedClass (elements : List (String × Value)) (methods : List Method) : ClassDecl :=
  ⟨⟨"LA;"⟩, ⟨1⟩, none, [], none, [⟨.system, ⟨"LN;"⟩, elements⟩], [], methods⟩

/-- A class with the two handles. The field and the method are the first of their tables. -/
def clashingFile : File :=
  ⟨35, [markedClass [("a", .methodHandle fieldHandle), ("b", .methodHandle strayHandle)] []]⟩

/-- The class with its elements in the other order. -/
def reclashingFile : File :=
  ⟨35, [markedClass [("b", .methodHandle strayHandle), ("a", .methodHandle fieldHandle)] []]⟩

/-- The files differ in the order of two elements. -/
theorem clashingFile_rearranged : clashingFile.Rearranged reclashingFile := by
  have annotation : Annotation.Rearranged
      ⟨.system, ⟨"LN;"⟩, [("a", .methodHandle fieldHandle), ("b", .methodHandle strayHandle)]⟩
      ⟨.system, ⟨"LN;"⟩, [("b", .methodHandle strayHandle), ("a", .methodHandle fieldHandle)]⟩ :=
    ⟨rfl, rfl, _, .refl _, Or.inr ⟨by decide, .swap _ _ _⟩⟩
  exact ⟨rfl, .cons {
    type := rfl
    flags := rfl
    superclass := rfl
    interfaces := rfl
    sourceFile := rfl
    annotations := ⟨_, .cons annotation .nil, Or.inl rfl⟩
    fields := ⟨[], .nil, .nil⟩
    methods := ⟨[], .nil, .nil⟩ } .nil⟩

/-- What both containers hold behind the signature, with the numbers of the two handles: the
rest of the header and the rows of the tables, the annotation, its set and the directory, the
strings, and the map. -/
def clashingRest (i j : UInt8) : List UInt8 :=
  [0x1D0, 0x70, 0x12345678, 0, 0, 0x130, 8, 0x70, 4, 0x90, 1, 0xA0, 1, 0xAC, 1, 0xB4, 1, 0xBC, 0xE4, 0xEC,
      0x110, 0x115, 0x11A, 0x11F, 0x122, 0x125, 0x128, 0x12B, 0, 1, 2, 3, 3, 3, 0, 0x10000, 7, 0, 6, 0, 1,
      0xFFFFFFFF, 0, 0xFFFFFFFF, 0x100, 0, 0, 1, 0, 1, 0].flatMap (le 4)
    ++ [2, 2, 2, 4, 0x16, i, 5, 0x16, j, 0, 0, 0] ++ [1, 0xEC, 0xF8, 0, 0, 0].flatMap (le 4)
    ++ [3, 0x4C, 0x41, 0x3B, 0, 3, 0x4C, 0x48, 0x3B, 0, 3, 0x4C, 0x4E, 0x3B, 0, 1, 0x56, 0, 1, 0x61, 0,
      1, 0x62, 0, 1, 0x6D, 0, 1, 0x78, 0, 0, 0]
    ++ [13, 0, 1, 0, 1, 8, 0x70, 2, 4, 0x90, 3, 1, 0xA0, 4, 1, 0xAC, 5, 1, 0xB4, 6, 1, 0xBC, 8, 2, 0xDC,
      0x2004, 1, 0xEC, 0x1003, 1, 0xF8, 0x2006, 1, 0x100, 0x2002, 8, 0x110, 0x1000, 1, 0x130].flatMap (le 4)

set_option maxRecDepth 20000 in
/-- The first handle of the one file is the first of the table. -/
theorem signedOf_clashingFile : signedOf clashingFile [0] = clashingRest 0 1 := by
  -- the whole library is imported for the equations with which this is evaluated
  unfold signedOf sizeOf layoutOf Layout.ofClasses AnnotationLayout.ofClasses
  simp -zeta only [ofList_eq_foldl]
  cbv

set_option maxRecDepth 20000 in
/-- In the other file it is the second. -/
theorem signedOf_reclashingFile : signedOf reclashingFile [0] = clashingRest 1 0 := by
  unfold signedOf sizeOf layoutOf Layout.ofClasses AnnotationLayout.ofClasses
  simp -zeta only [ofList_eq_foldl]
  cbv

/-- What is written is known with what is signed. -/
theorem Modest.writes_of_signed {f : File} {rest : List UInt8} (modest : Modest f)
    (first : Hierarchy.ParentsFirst f.classes)
    (signed : signedOf f (List.range f.classes.length) = rest) :
    encode f = .ok (stamp (writtenVersion (poolOf f) f) rest)
      ∧ Writes f (List.range f.classes.length) (stamp (writtenVersion (poolOf f) f) rest) := by
  obtain ⟨b, written, writes⟩ := modest.exists_encode (Hierarchy.order_of_parentsFirst first)
  rw [← signed, ← writes.bytes]
  exact ⟨written, writes⟩

/-- The handle that is listed first gets the first number. -/
theorem writes_clashingFile : encode clashingFile = .ok (stamp 38 (clashingRest 0 1))
    ∧ Writes clashingFile [0] (stamp 38 (clashingRest 0 1)) := by
  have modest : Modest clashingFile := by
    constructor
    all_goals decide
  exact modest.writes_of_signed (Hierarchy.parentsFirst_of_getElem (by decide)) signedOf_clashingFile

theorem writes_reclashingFile : encode reclashingFile = .ok (stamp 38 (clashingRest 1 0))
    ∧ Writes reclashingFile [0] (stamp 38 (clashingRest 1 0)) := by
  have modest : Modest reclashingFile := by
    constructor
    all_goals decide
  exact modest.writes_of_signed (Hierarchy.parentsFirst_of_getElem (by decide)) signedOf_reclashingFile

/-- The two containers are different. -/
theorem clashingRest_apart : stamp 38 (clashingRest 0 1) ≠ stamp 38 (clashingRest 1 0) := by
  intro same
  have values := congrArg (fun rest => rest[209]?) (stamp_injective (by decide) same)
  exact absurd values (by decide)

/-- The file can be written to both. -/
theorem encodes_clashingFile : Encodes clashingFile (.ok (stamp 38 (clashingRest 0 1)))
    ∧ Encodes clashingFile (.ok (stamp 38 (clashingRest 1 0))) := by
  have distinct : ∀ c ∈ reclashingFile.classes, c.MembersDistinct := by
    intro c hc
    obtain rfl := List.mem_singleton.mp hc
    exact ⟨List.nodup_nil, List.nodup_nil⟩
  exact ⟨writes_clashingFile.1 ▸ encodes_encode _,
    encodes_of_sameParts clashingFile_rearranged.sameParts.symm distinct
      (writes_reclashingFile.1 ▸ encodes_encode _)⟩

end StubJar.Container
