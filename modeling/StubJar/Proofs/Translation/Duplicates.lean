import StubJar.Proofs.Jar.Additions
import StubJar.Proofs.Translation.Independence

/-!
# Classes of one name

The path of an entry is made of the name of its class alone, and it is never that of the
manifest. So an archive refuses a class only where another of the same name stands in front of
it, and whatever else makes a translation fail does not look like that: no part of a single
class is refused for the name of another (`spares_partsOf`).

A translation is a run of additions (`run_of_addClasses`), so what is known of all runs is known
of it; `archives_filled` says both together.
-/

namespace StubJar.Translation

open StubJar.Dalvik StubJar.ClassFile StubJar.ClassFile.ConstantPool StubJar.Jar

/-! ## Faults of a class on its own -/

/-- The fault is not that two classes have one name. -/
def Fault.SparesNames : Fault → Prop
  | duplicateClass _ => False
  | _ => True

/-- Whatever makes the computation fail, it is not that two classes have one name. -/
def SparesNames {α : Type} (x : Translator α) : Prop :=
  ∀ p fault q, x p = (.error fault, q) → fault.SparesNames

namespace SparesNames

variable {α β : Type}

/-- A result does not fail. -/
theorem pure (a : α) : SparesNames (Pure.pure a) := by
  intro p fault q failed
  cases failed

/-- A fault that spares names does. -/
theorem throw {fault : Fault} (spares : fault.SparesNames) :
    SparesNames (MonadExcept.throw fault : Translator α) := by
  rintro p fault' q ⟨⟩
  exact spares

/-- Two steps spare names if both do. -/
theorem bind {x : Translator α} {f : α → Translator β} (first : SparesNames x)
    (second : ∀ a, SparesNames (f a)) : SparesNames (x >>= f) := by
  intro p fault q failed
  rw [PoolM.bind_run] at failed
  split at failed
  · exact second _ _ _ _ failed
  · cases failed
    exact first _ _ _ ‹_›

/-- The faults of a class file have nothing to do with other classes. -/
theorem lift (x : PoolM ClassFile.Fault α) : SparesNames (liftM x : Translator α) := by
  intro p fault q failed
  change PoolM.mapFault Fault.classFile x p = _ at failed
  rw [PoolM.mapFault] at failed
  generalize x p = result at failed
  obtain ⟨_ | a, r⟩ := result
  · cases failed
    trivial
  · cases failed

/-- Steps over a list spare names if each of them does. -/
theorem mapM {f : α → Translator β} (each : ∀ a, SparesNames (f a)) (items : List α) :
    SparesNames (items.mapM f) := by
  induction items with
  | nil =>
    rw [List.mapM_nil]
    exact pure []
  | cons a items ih =>
    rw [List.mapM_cons]
    exact (each a).bind fun b => ih.bind fun bs => pure (b :: bs)

end SparesNames

/-! ## The parts of a class -/

/-- What is looked up in a register has nothing to do with names. -/
theorem spares_narrowAt (m : Method) (rs : Registers) (r : Register) :
    SparesNames (narrowAt m rs r) := by
  rw [narrowAt]
  split
  · exact .pure _
  · exact .throw trivial

/-- So it is with a pair of registers. -/
theorem spares_wideAt (m : Method) (rs : Registers) (r : Register) :
    SparesNames (wideAt m rs r) := by
  rw [wideAt]
  split
  · exact .pure _
  · exact .throw trivial

/-- So it is with the code of a return. -/
theorem spares_returnCode (m : Method) (rs : Registers) (i : Dalvik.Instruction) :
    SparesNames (returnCode m rs i) := by
  unfold returnCode
  dsimp only
  split
  · exact .pure _
  · exact (spares_narrowAt m rs _).bind fun v => (SparesNames.lift _).bind fun _ => .pure _
  · exact (spares_wideAt m rs _).bind fun v => (SparesNames.lift _).bind fun _ => .pure _
  · exact (spares_wideAt m rs _).bind fun v => (SparesNames.lift _).bind fun _ => .pure _
  · refine (spares_narrowAt m rs _).bind fun v => ?_
    split
    · exact .pure _
    · exact .throw trivial
  · split
    · exact (spares_narrowAt m rs _).bind fun v => (SparesNames.lift _).bind fun _ => .pure _
    · exact .throw trivial
  · exact .throw trivial

theorem spares_codeFrom (m : Method) (rs : Registers) (is : List Dalvik.Instruction) :
    SparesNames (codeFrom m rs is) := by
  induction is generalizing rs with
  | nil => exact .throw trivial
  | cons i is ih =>
    cases i with
    | const4 r v | const16 r v | constWide16 r v => exact ih _
    | returnVoid | return32 r | returnWide r | returnObject r =>
      refine (spares_returnCode m rs _).bind fun code => ?_
      split
      · exact .pure _
      · exact .throw trivial

/-- So it is with that of a method. -/
theorem spares_codeOf (m : Method) : SparesNames (codeOf m) := by
  rw [codeOf]
  split
  · exact .throw trivial
  · split
    · exact .throw trivial
    · refine (spares_codeFrom m _ _).bind fun code => ?_
      split
      · exact .throw trivial
      · exact .pure _

theorem spares_methodForm (m : Method) : SparesNames (methodForm m) := by
  have code : SparesNames (codeAttributes m) := by
    rw [codeAttributes]
    split
    · exact .pure _
    · exact (spares_codeOf m).bind fun _ => (SparesNames.lift _).bind fun _ => .pure _
  refine (SparesNames.lift _).bind fun name => (SparesNames.lift _).bind fun descriptor => ?_
  refine code.bind fun _ => (SparesNames.lift _).bind fun _ => ?_
  exact (SparesNames.lift _).bind fun _ => (SparesNames.lift _).bind fun _ => .pure _

/-- A parent that is no class is a fault of its own. -/
theorem spares_parentSlot (d : Descriptor) : SparesNames (parentSlot d) := by
  have name : SparesNames (parentName d) := by
    rw [parentName]
    split
    · exact .pure _
    · split
      · exact .pure _
      · exact .throw trivial
  exact name.bind fun _ => .lift _

/-- No part of a class is refused for the name of another class. -/
theorem spares_partsOf (name : String) (c : ClassDecl) : SparesNames (partsOf name c) := by
  have superclass : SparesNames (c.superclass.mapM parentSlot) := by
    cases c.superclass with
    | none => exact .pure _
    | some d => exact (spares_parentSlot d).bind fun _ => .pure _
  refine (SparesNames.lift _).bind fun thisClass => superclass.bind fun _ => ?_
  refine (SparesNames.mapM spares_parentSlot _).bind fun _ => ?_
  refine (SparesNames.mapM (fun f => .lift (fieldForm f)) _).bind fun _ => ?_
  refine (SparesNames.mapM spares_methodForm _).bind fun _ => ?_
  exact (SparesNames.lift _).bind fun _ => (SparesNames.lift _).bind fun _ => .pure _

/-- So no class is refused for the name of another when it is translated. -/
theorem classEntry_spares {version : Version} {c : ClassDecl} {fault : Fault}
    (failed : classEntry version c = .error fault) : fault.SparesNames := by
  rw [classEntry] at failed
  split at failed
  · cases failed
    trivial
  · split at failed
    · cases failed
    · cases failed
      exact spares_partsOf _ _ _ _ _ ‹_›

/-! ## Classes that are refused -/

/-- Two classes of the list, of which one stands in front of the other, have the name. -/
def NamedTwice (classes : List ClassDecl) (name : String) : Prop :=
  ∃ (i j : Nat) (c d : ClassDecl), i < j ∧ classes[i]? = some c ∧ classes[j]? = some d
    ∧ c.type.className? = some name ∧ d.type.className? = some name

/-- A class that an archive refuses has the name of one that the archive holds. -/
theorem addClass_duplicate {version : Version} {a : Archive} {c : ClassDecl} {name : String}
    (failed : addClass version a c = .error (.duplicateClass name)) :
    c.type.className? = some name ∧ a.isTaken (name ++ ".class") = true := by
  rw [addClass, bind_eq_error] at failed
  rcases failed with failed | ⟨e, made, failed⟩
  · exact (classEntry_spares failed).elim
  · split at failed
    · cases failed
    · rename_i refused
      cases failed
      refine ⟨(classEntry_eq_ok.mp made).1, ?_⟩
      rw [Archive.add?] at refused
      split at refused
      · assumption
      · cases refused

/-- What a class file is packed as. -/
def additionOf (e : ClassEntry) : Archive.Addition := (e.path, e.bytes)

/-- Classes are added to an archive by a run in which everything is accepted. -/
theorem run_of_addClasses {version : Version} {classes : List ClassDecl} {a b : Archive}
    (added : classes.foldlM (addClass version) a = .ok b) :
    ∃ entries, List.Forall₂ (fun c e => classEntry version c = .ok e) classes entries
      ∧ a.run (entries.map additionOf) = (b, entries.map fun _ => true) := by
  induction classes generalizing a with
  | nil =>
    cases added
    exact ⟨[], .nil, rfl⟩
  | cons c classes ih =>
    obtain ⟨next, first, rest⟩ := foldlM_cons_eq_ok.mp added
    rw [addClass, bind_eq_ok] at first
    obtain ⟨e, made, first⟩ := first
    split at first
    · rename_i free
      cases first
      obtain ⟨entries, each, run⟩ := ih rest
      have accepted : a.add (additionOf e) = (next, true) := by
        rw [Archive.add, additionOf, free]
      refine ⟨e :: entries, .cons made each, ?_⟩
      rw [List.map_cons, Archive.run, accepted, run]
      rfl
    · cases first

/-- An archive refuses a class if its name is there twice. -/
theorem namedTwice_of_archiveOf {version : Version} {classes : List ClassDecl} {name : String}
    (failed : archiveOf version classes = .error (.duplicateClass name)) :
    NamedTwice classes name := by
  obtain ⟨earlier, d, later, a, rfl, archived, failed⟩ := foldlM_eq_error failed
  obtain ⟨named, taken⟩ := addClass_duplicate failed
  obtain ⟨entries, each, run⟩ := run_of_addClasses archived
  have held := (Archive.isTaken_iff.mp taken).resolve_left (path_ne_manifestPath name)
  rw [show a = (Archive.empty.run (entries.map additionOf)).1 from run ▸ rfl,
    Archive.getElem?_run_empty] at held
  obtain ⟨data, held⟩ := Option.isSome_iff_exists.mp held
  have packed := List.mem_of_find?_eq_some (Archive.findSome?_given.mp held).2
  obtain ⟨e, mem, same⟩ := List.mem_map.mp packed
  obtain ⟨c, listed, made⟩ := exists_of_mem_right each mem
  obtain rfl := (String.append_left_inj ".class").mp (Prod.mk.inj same).1
  obtain ⟨i, inside, rfl⟩ := List.getElem_of_mem listed
  refine ⟨i, earlier.length, _, d, inside, ?_, ?_, (classEntry_eq_ok.mp made).1, named⟩
  · rw [List.getElem?_append_left inside, List.getElem?_eq_getElem inside]
  · rw [List.getElem?_append_right (Nat.le_refl _), Nat.sub_self]
    rfl

/-- A container is refused for the name of a class only if two of its classes have that name. -/
theorem namedTwice_of_archiveOfContainer {version : Version} {bytes : List UInt8} {name : String}
    (failed : archiveOfContainer version bytes = .error (.duplicateClass name)) :
    ∃ f, Container.decode bytes = .ok f ∧ NamedTwice f.classes name := by
  rw [archiveOfContainer] at failed
  split at failed
  · cases failed
  · rename_i f read
    exact ⟨f, read, namedTwice_of_archiveOf failed⟩

/-- What archives come to: however they are filled, the first addition under each path but that
of the manifest is listed, in the order of the bytes of the paths; where no path is used twice,
the order of the additions is of no account; and of classes, whose paths are made of their
names, one is refused only for another of its name. -/
theorem archives_filled :
    (∀ xs, Archive.Filled xs (Archive.empty.run xs).1 (Archive.empty.run xs).2)
    ∧ (∀ xs ys : List Archive.Addition, xs.Perm ys → (xs.map Prod.fst).Nodup →
      (Archive.empty.run xs).1.entries = (Archive.empty.run ys).1.entries)
    ∧ ∀ version bytes name, archiveOfContainer version bytes = .error (.duplicateClass name) →
      ∃ f, Container.decode bytes = .ok f ∧ NamedTwice f.classes name :=
  ⟨Archive.filled_run, fun _ _ => Archive.entries_run_perm, fun _ _ _ => namedTwice_of_archiveOfContainer⟩

/-- A class behind itself is refused for its name. -/
theorem archiveOf_twins {version : Version} {c : ClassDecl} {e : ClassEntry}
    (made : classEntry version c = .ok e) :
    archiveOf version [c, c] = .error (.duplicateClass e.name) := by
  have taken : Archive.isTaken ⟨Archive.empty.added.insert e.path e.bytes⟩ e.path = true := by
    rw [Archive.isTaken, Bool.or_eq_true]
    exact .inr Std.TreeMap.contains_insert_self
  rw [archiveOf, List.foldlM_cons, addClass_empty made]
  dsimp only [bind, Except.bind]
  rw [List.foldlM_cons, addClass, made]
  dsimp only [bind, Except.bind]
  rw [Archive.add?, if_pos taken]
  rfl

/-- A class that has nothing but its type. -/
def bareClass : ClassDecl := ⟨⟨"LA;"⟩, ⟨0⟩, none, [], none, [], [], []⟩

/-- It is translated. -/
theorem classEntry_bareClass : ∃ e, classEntry Version.default bareClass = .ok e := by
  have source : sourceAttributes bareClass = pure [] := rfl
  have common : commonAttributes bareClass.annotations = pure [] := rfl
  have parts : ∃ parts pool, partsOf "A" bareClass ConstantPool.empty = (.ok parts, pool) := by
    rw [partsOf, source, common, empty_eq_ofConstants]
    simp (disch := decide) only [bareClass, PoolM.classRef, PoolM.utf8, PoolM.bind_run, lift_run,
      PoolM.pure_run, PoolM.slot_ofConstants, slotsOf, Constant.width, List.map_nil, List.map_cons,
      List.sum_nil, List.sum_cons, List.nil_append, List.cons_append, Except.mapError,
      Option.mapM_none, List.mapM_nil]
    exact ⟨_, _, rfl⟩
  obtain ⟨parts, pool, result⟩ := parts
  exact ⟨⟨"A", _⟩, classEntry_eq_ok.mpr ⟨rfl, parts, pool, result, rfl⟩⟩

/-- The words of the row of a class that has nothing but its type, the first of all. -/
def bareRow : List Nat := [0, 0, 0xFFFFFFFF, 0, 0xFFFFFFFF, 0, 0, 0]

/-- A container with two classes `A`: its header, the rows of a string, of a type and of the
classes, and the string. -/
def twinContainer : List UInt8 :=
  [0x64, 0x65, 0x78, 0x0A, 0x30, 0x33, 0x35, 0]
    ++ ([0xA1861515, 0, 0, 0, 0, 0, 0xBD, 0x70, 0x12345678, 0, 0, 0, 1, 0x70, 1, 0x74, 0, 0, 0, 0,
        0, 0, 2, 0x78, 0, 0, 0xB8, 0] ++ bareRow ++ bareRow).flatMap (Bytes.le 4)
    ++ [3, 0x4C, 0x41, 0x3B, 0]

set_option maxRecDepth 20000 in
/-- The container is read as two classes of one name. -/
theorem decode_twinContainer : Container.decode twinContainer =
    .ok ⟨35, [bareClass, bareClass]⟩ := by
  rfl

/-- Two entries in both orders, and a container with two classes of one name. -/
theorem archives_filled_twins :
    (Archive.empty.run [("b", [2]), ("a", [1])]).1.entries
        = (Archive.empty.run [("a", [1]), ("b", [2])]).1.entries
      ∧ ∃ f, Container.decode twinContainer = .ok f ∧ NamedTwice f.classes "A" := by
  constructor
  · exact archives_filled.2.1 _ _ (.swap _ _ []) (by decide)
  · obtain ⟨e, made⟩ := classEntry_bareClass
    have named : some "A" = some e.name := (classEntry_eq_ok.mp made).1
    have failed : archiveOfContainer Version.default twinContainer =
        .error (.duplicateClass e.name) := by
      rw [archiveOfContainer, decode_twinContainer]
      exact archiveOf_twins made
    rw [← Option.some.inj named] at failed
    exact archives_filled.2.2 _ _ _ failed

end StubJar.Translation
