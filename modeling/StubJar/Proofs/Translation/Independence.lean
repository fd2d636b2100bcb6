import StubJar.Proofs.Container.Settled
import StubJar.Proofs.Translation.Faithful

/-!
# Classes on their own

The class file of a class is a function of the class and the version alone
(`entries_of_class`): whatever else is written to the same container, and wherever the
class stands there, it is read back in its normal form, and its entry in the archive is
the class file of that normal form. So two archives that have a class in common have its
entry in common (`entry_independent`).
-/

namespace StubJar.Translation

open StubJar.Dalvik StubJar.ClassFile StubJar.ClassFile.ConstantPool StubJar.Jar

/-! ## Entries by their paths -/

/-- The entries of an archive under a path. -/
def entriesAt (a : Archive) (path : String) : List Entry := a.entries.filter (·.path == path)

/-- Of entries with ascending paths, one alone has a given path. -/
theorem filter_path {entries : List Entry} {e : Entry}
    (ascending : entries.Pairwise fun d e => d.path < e.path) (mem : e ∈ entries) :
    entries.filter (·.path == e.path) = [e] := by
  induction entries with
  | nil => cases mem
  | cons d entries ih =>
    obtain ⟨first, ascending⟩ := List.pairwise_cons.mp ascending
    rw [List.filter_cons]
    rcases List.mem_cons.mp mem with rfl | later
    · have others : entries.filter (·.path == e.path) = [] := by
        refine List.filter_eq_nil_iff.mpr fun x hx same => ?_
        exact String.lt_irrefl _ ((eq_of_beq same) ▸ first x hx)
      rw [if_pos (beq_self_eq_true _), others]
    · have other : (d.path == e.path) ≠ true := fun same =>
        String.lt_irrefl _ ((eq_of_beq same) ▸ first e later)
      rw [if_neg other, ih ascending later]

/-- Under the path of a class there is one entry. -/
theorem entriesAt_of_mem {a : Archive} {name : String} {data : List UInt8}
    (mem : (name ++ ".class", data) ∈ a.added.toList) :
    entriesAt a (name ++ ".class") = [⟨name ++ ".class", .deflated, data⟩] := by
  have other : (manifestPath == name ++ ".class") ≠ true := fun same =>
    path_ne_manifestPath name (eq_of_beq same).symm
  rw [entriesAt, Archive.entries, List.filter_cons, if_neg other]
  exact filter_path (entries_ascending a) (List.mem_map_of_mem (f := entryAt) mem)

/-! ## The entry of a class -/

/-- Every class of a regular file is read back in its normal form. -/
theorem normal_mem {f : File} {order : List Nat} {b : List UInt8} {c : ClassDecl}
    (regular : f.Regular) (writes : Container.Writes f order b) (hc : c ∈ f.classes) :
    c.normal ∈ (Container.reread f order).classes := by
  show c.normal ∈ Container.readClasses f order
  have listed := writes.perm.filterMap (f.classes[·]?)
  rw [Container.Hierarchy.filterMap_range] at listed
  rw [Container.readClasses_eq regular.fields]
  exact List.mem_map_of_mem (listed.mem_iff.mpr hc)

/-- Under the path of a class there is the class file of its normal form, and nothing
else. -/
theorem entries_of_class {version : Version} {f : File} {b : List UInt8} {a : Archive} {c : ClassDecl}
    (regular : f.Regular) (written : Container.encode f = .ok b) (small : b.length < 2 ^ 32)
    (archived : archiveOfContainer version b = .ok a) (hc : c ∈ f.classes) :
    ∃ entry, classEntry version c.normal = .ok entry ∧ c.type.className? = some entry.name
      ∧ entriesAt a entry.path = [⟨entry.path, .deflated, entry.bytes⟩] := by
  obtain ⟨order, _, writes⟩ := Container.encode_eq_ok.mp written
  have back := (Container.legible_of_regular regular writes small).decode_eq
  rw [archiveOfContainer, back] at archived
  obtain ⟨entries, each, perm⟩ := archiveOf_perm archived
  obtain ⟨entry, mem, made⟩ := exists_of_mem_right each.flip (normal_mem regular writes hc)
  have named : c.normal.type.className? = some entry.name := (classEntry_eq_ok.mp made).1
  refine ⟨entry, made, named, entriesAt_of_mem ?_⟩
  exact perm.symm.subset (List.mem_map_of_mem (f := fun e : ClassEntry => (e.path, e.bytes)) mem)

/-- Two archives that are made of containers with a class in common have the same entry
for that class. The containers are those whose sizes and offsets have 32 bits, which is
all that the format counts. -/
theorem entry_independent {version : Version} {f g : File} {b b' : List UInt8} {a a' : Archive}
    {c : ClassDecl} (regular : f.Regular) (regular' : g.Regular) (hc : c ∈ f.classes)
    (hc' : c ∈ g.classes) (written : Container.encode f = .ok b) (written' : Container.encode g = .ok b')
    (small : b.length < 2 ^ 32) (small' : b'.length < 2 ^ 32)
    (archived : archiveOfContainer version b = .ok a)
    (archived' : archiveOfContainer version b' = .ok a') :
    ∃ name e, c.type.className? = some name ∧ entriesAt a (name ++ ".class") = [e]
      ∧ entriesAt a' (name ++ ".class") = [e] := by
  obtain ⟨entry, made, name, only⟩ := entries_of_class regular written small archived hc
  obtain ⟨entry', made', _, only'⟩ := entries_of_class regular' written' small' archived' hc'
  obtain rfl := Except.ok.inj (made.symm.trans made')
  exact ⟨entry.name, _, name, only, only'⟩

/-! ## One class beside two others -/

/-- A subclass with a field, whose type stands in front of that of the class. -/
def neighbour : ClassDecl :=
  ⟨⟨"LA/B;"⟩, ⟨1⟩, some ⟨"LA;"⟩, [], none, [], [⟨⟨⟨"LA/B;"⟩, "a", ⟨"J"⟩⟩, ⟨2⟩, none, []⟩], []⟩

/-- An interface with a method. -/
def stranger : ClassDecl :=
  ⟨⟨"LZ;"⟩, ⟨0x601⟩, some ⟨"Ljava/lang/Object;"⟩, [], none, [], [],
    [⟨⟨⟨"LZ;"⟩, "b", ⟨⟨"V"⟩, []⟩⟩, ⟨0x401⟩, [], [], none⟩]⟩

/-- The class behind its subclass. -/
def neighbourFile : File := ⟨35, [neighbour, sampleClass]⟩

/-- The class in front of the interface. -/
def strangerFile : File := ⟨39, [sampleClass, stranger]⟩

/-- The superclass is written in front. -/
theorem order_neighbourFile : Container.Hierarchy.order neighbourFile.classes = .ok [1, 0] := by
  rw [Container.Hierarchy.order_eq, Container.Hierarchy.parentsOf_eq]
  decide

/-- The classes of the other file are in order. -/
theorem order_strangerFile : Container.Hierarchy.order strangerFile.classes = .ok [0, 1] := by
  rw [Container.Hierarchy.order_eq, Container.Hierarchy.parentsOf_eq]
  decide

theorem normal_sampleClass : sampleClass.normal = sampleClass := by cbv

/-- In the first file, the class moves in front of what builds on it. -/
theorem normal_neighbourFile : neighbourFile.normal = ⟨35, [sampleClass, neighbour]⟩ := by
  have other : neighbour.normal = neighbour := by cbv
  rw [File.normal, File.inOrder, order_neighbourFile]
  show (⟨35, [sampleClass.normal, neighbour.normal]⟩ : File) = _
  rw [normal_sampleClass, other]

/-- The other file is its own normal form. -/
theorem normal_strangerFile : strangerFile.normal = strangerFile := by
  have other : stranger.normal = stranger := by cbv
  rw [File.normal, File.inOrder, order_strangerFile]
  show (⟨39, [sampleClass.normal, stranger.normal]⟩ : File) = _
  rw [normal_sampleClass, other]
  rfl

/-- The class beside it in the first file is translated. -/
theorem partsOf_neighbour : ∃ parts pool, partsOf "A/B" neighbour ConstantPool.empty
    = (.ok parts, pool) := by
  have parent : parentSlot ⟨"LA;"⟩ = liftM (PoolM.classRef "A") := rfl
  have field : fieldForm ⟨⟨⟨"LA/B;"⟩, "a", ⟨"J"⟩⟩, ⟨2⟩, none, []⟩ = (do
      let name ← PoolM.utf8 "a"
      let descriptor ← PoolM.utf8 "J"
      return ⟨2, name, descriptor, []⟩) := rfl
  have source : sourceAttributes neighbour = pure [] := rfl
  have common : commonAttributes neighbour.annotations = pure [] := rfl
  rw [partsOf, source, common, empty_eq_ofConstants]
  simp (disch := decide) only [neighbour, parent, field, PoolM.classRef, PoolM.utf8, PoolM.bind_run,
    lift_run, PoolM.pure_run, PoolM.slot_ofConstants, slotsOf, Constant.width, List.map_nil,
    List.map_cons, List.sum_nil, List.sum_cons, List.nil_append, List.cons_append, Except.mapError,
    Option.mapM_some, map_eq_pure_bind, List.mapM_nil, List.mapM_cons]
  exact ⟨_, _, rfl⟩

/-- So is the one in the other file. -/
theorem partsOf_stranger : ∃ parts pool, partsOf "Z" stranger ConstantPool.empty
    = (.ok parts, pool) := by
  have parent : parentSlot ⟨"Ljava/lang/Object;"⟩ = liftM (PoolM.classRef "java/lang/Object") := rfl
  have method : methodForm ⟨⟨⟨"LZ;"⟩, "b", ⟨⟨"V"⟩, []⟩⟩, ⟨0x401⟩, [], [], none⟩ = (do
      let name ← PoolM.utf8 "b"
      let descriptor ← PoolM.utf8 "()V"
      return ⟨0x401, name, descriptor, []⟩) := rfl
  have source : sourceAttributes stranger = pure [] := rfl
  have common : commonAttributes stranger.annotations = pure [] := rfl
  rw [partsOf, source, common, empty_eq_ofConstants]
  simp (disch := decide) only [stranger, parent, method, PoolM.classRef, PoolM.utf8, PoolM.bind_run,
    lift_run, PoolM.pure_run, PoolM.slot_ofConstants, slotsOf, Constant.width, List.map_nil,
    List.map_cons, List.sum_nil, List.sum_cons, List.nil_append, List.cons_append, Except.mapError,
    Option.mapM_some, map_eq_pure_bind, List.mapM_nil, List.mapM_cons]
  exact ⟨_, _, rfl⟩

/-- A file that is read back as two classes with different names is translated with them. -/
theorem exists_archive_of_pair {version : Version} {f : File} {order : List Nat} {c c' : ClassDecl}
    {e e' : ClassEntry} (modest : Container.Modest f) (regular : f.Regular)
    (room : Container.roomOf f < 2 ^ 32) (ordered : Container.Hierarchy.order f.classes = .ok order)
    (classes : f.normal.classes = [c, c']) (made : classEntry version c = .ok e)
    (made' : classEntry version c' = .ok e') (different : e.path ≠ e'.path) :
    ∃ b a, Container.encode f = .ok b ∧ b.length < 2 ^ 32 ∧ Container.decode b = .ok f.normal
      ∧ archiveOfContainer version b = .ok a := by
  obtain ⟨b, written, _, small⟩ := modest.exists_small regular.known room ordered
  have read := Container.decode_encode_normal written small regular.known regular.flags regular.kinds
    regular.methods regular.fields
  have archived : archiveOfContainer version b = archiveOf version [c, c'] := by
    rw [archiveOfContainer, read]
    dsimp only
    rw [classes]
  exact ⟨b, _, written, small, read, archived.trans (archiveOf_pair made made' different)⟩

/-- The first file makes an archive. -/
theorem archive_of_neighbourFile : ∃ b a, Container.encode neighbourFile = .ok b ∧ b.length < 2 ^ 32
    ∧ Container.decode b = .ok neighbourFile.normal ∧ archiveOfContainer Version.default b = .ok a := by
  have modest : Container.Modest neighbourFile := by
    constructor
    all_goals decide
  have room : Container.roomOf neighbourFile < 2 ^ 32 := by decide +kernel
  obtain ⟨parts, pool, result⟩ := partsOf_neighbour
  have entry : classEntry Version.default neighbour = .ok ⟨"A/B", _⟩ :=
    classEntry_eq_ok.mpr ⟨rfl, parts, pool, result, rfl⟩
  exact exists_archive_of_pair modest (by decide) room order_neighbourFile
    (congrArg File.classes normal_neighbourFile) classEntry_sample entry
    (by decide : "A" ++ ".class" ≠ "A/B" ++ ".class")

theorem archive_of_strangerFile : ∃ b a, Container.encode strangerFile = .ok b ∧ b.length < 2 ^ 32
    ∧ Container.decode b = .ok strangerFile.normal ∧ archiveOfContainer Version.default b = .ok a := by
  have modest : Container.Modest strangerFile := by
    constructor
    all_goals decide
  have room : Container.roomOf strangerFile < 2 ^ 32 := by decide +kernel
  obtain ⟨parts, pool, result⟩ := partsOf_stranger
  have entry : classEntry Version.default stranger = .ok ⟨"Z", _⟩ :=
    classEntry_eq_ok.mpr ⟨rfl, parts, pool, result, rfl⟩
  exact exists_archive_of_pair modest (by decide) room order_strangerFile
    (congrArg File.classes normal_strangerFile) classEntry_sample entry
    (by decide : "A" ++ ".class" ≠ "Z" ++ ".class")

/-- Both archives have the same entry for the class that the files share. -/
theorem entry_independent_sample : ∃ b b' a a' e,
    Container.encode neighbourFile = .ok b ∧ Container.encode strangerFile = .ok b'
      ∧ archiveOfContainer Version.default b = .ok a ∧ archiveOfContainer Version.default b' = .ok a'
      ∧ entriesAt a "A.class" = [e] ∧ entriesAt a' "A.class" = [e] := by
  obtain ⟨b, a, written, small, _, archived⟩ := archive_of_neighbourFile
  obtain ⟨b', a', written', small', _, archived'⟩ := archive_of_strangerFile
  have shared : sampleClass ∈ neighbourFile.classes ∧ sampleClass ∈ strangerFile.classes :=
    ⟨.tail _ (.head _), .head _⟩
  obtain ⟨name, e, known, only, only'⟩ := entry_independent (by decide : neighbourFile.Regular)
    (by decide : strangerFile.Regular) shared.1 shared.2 written written' small small' archived archived'
  obtain rfl : "A" = name := Option.some.inj known
  exact ⟨b, b', a, a', e, written, written', archived, archived', only, only'⟩

end StubJar.Translation
