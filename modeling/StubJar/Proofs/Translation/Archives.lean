import Mathlib.Data.List.Perm.Basic
import StubJar.Output
import StubJar.Proofs.Translation.Failures

/-!
# What an archive says

An archive holds its manifest and then one entry for each class, in ascending
order of the paths (`Archive.entries_ascending`, `archiveOf_perm`). Each of them is
a class file that says what its class says (`classEntry_read`): stubbing, writing,
reading back and translating change nothing but the order of the members.
-/

namespace StubJar.Translation

open StubJar.Dalvik StubJar.ClassFile StubJar.ClassFile.ConstantPool StubJar.Jar

/-! ## Entries -/

/-- What is packed under a path. -/
def entryAt (x : String × List UInt8) : Entry := ⟨x.1, .deflated, x.2⟩

/-- The paths behind the manifest ascend. -/
theorem entries_ascending (a : Archive) :
    (a.added.toList.map entryAt).Pairwise fun d e => d.path < e.path := by
  have ordered := Std.TreeMap.ordered_keys_toList (t := a.added)
  exact List.pairwise_map.mpr (ordered.imp fun ascending => compareOfLessAndEq_eq_lt.mp ascending)

/-- An addition is one entry more. -/
theorem add?_perm {a b : Archive} {path : String} {data : List UInt8}
    (h : a.add? path data = some b) :
    b.added.toList.Perm ((path, data) :: a.added.toList) := by
  rw [Archive.add?] at h
  split at h
  · cases h
  · rename_i free
    cases h
    have others : a.added.toList.filter (fun x => decide ¬(path == x.1) = true)
        = a.added.toList := by
      refine List.filter_eq_self.mpr fun x mem => decide_eq_true fun same => free ?_
      obtain rfl := eq_of_beq same
      have known := Std.TreeMap.mem_toList_iff_getElem?_eq_some.mp (show (x.1, x.2) ∈ _ from mem)
      rw [Archive.isTaken, Bool.or_eq_true, Std.TreeMap.contains_eq_isSome_getElem?, known]
      exact .inr rfl
    have inserted := Std.TreeMap.toList_insert_perm (t := a.added) (k := path) (v := data)
    rwa [others] at inserted

/-- Every class makes one entry. -/
theorem archiveOf_perm {version : Version} {classes : List ClassDecl} {a : Archive}
    (h : archiveOf version classes = .ok a) :
    ∃ entries, List.Forall₂ (fun c e => classEntry version c = .ok e) classes entries
      ∧ a.added.toList.Perm (entries.map fun e => (e.path, e.bytes)) := by
  have all : ∀ start : Archive, classes.foldlM (addClass version) start = .ok a →
      ∃ entries, List.Forall₂ (fun c e => classEntry version c = .ok e) classes entries
        ∧ a.added.toList.Perm ((entries.map fun e => (e.path, e.bytes)) ++ start.added.toList) := by
    clear h
    induction classes with
    | nil =>
      intro start h
      cases h
      exact ⟨[], .nil, .refl _⟩
    | cons c classes ih =>
      intro start h
      obtain ⟨next, added, rest⟩ := foldlM_cons_eq_ok.mp h
      rw [addClass, bind_eq_ok] at added
      obtain ⟨entry, made, added⟩ := added
      split at added
      · rename_i b free
        cases added
        obtain ⟨entries, each, perm⟩ := ih next rest
        refine ⟨entry :: entries, .cons made each, perm.trans ?_⟩
        exact ((add?_perm free).append_left _).trans List.perm_middle
      · cases added
  obtain ⟨entries, each, perm⟩ := all _ h
  have start : Archive.empty.added.toList = [] := rfl
  rw [start, List.append_nil] at perm
  exact ⟨entries, each, perm⟩

/-- The manifest has the path of no class. -/
theorem path_ne_manifestPath (name : String) : name ++ ".class" ≠ manifestPath := by
  intro same
  have last := congrArg (fun s : String => s.toList.getLast?) same
  simp [manifestPath] at last

/-- An archive takes a class under a path that is free. -/
theorem addClass_of_free {version : Version} {a : Archive} {c : ClassDecl} {e : ClassEntry}
    (made : classEntry version c = .ok e) (free : a.isTaken e.path = false) :
    addClass version a c = .ok ⟨a.added.insert e.path e.bytes⟩ := by
  rw [addClass, made]
  dsimp only [bind, Except.bind]
  rw [Archive.add?, free, if_neg Bool.false_ne_true]
  rfl

/-- Without entries, it takes any class. -/
theorem addClass_empty {version : Version} {c : ClassDecl} {e : ClassEntry}
    (made : classEntry version c = .ok e) :
    addClass version Archive.empty c = .ok ⟨Archive.empty.added.insert e.path e.bytes⟩ := by
  have other : (e.path == manifestPath) = false := beq_false_of_ne (path_ne_manifestPath e.name)
  refine addClass_of_free made ?_
  rw [Archive.isTaken, other, Bool.false_or]
  exact Std.TreeMap.contains_emptyc

/-- So it is made of one class. -/
theorem archiveOf_singleton {version : Version} {c : ClassDecl} {e : ClassEntry}
    (made : classEntry version c = .ok e) :
    archiveOf version [c] = .ok ⟨Archive.empty.added.insert e.path e.bytes⟩ := by
  rw [archiveOf, List.foldlM_cons, addClass_empty made]
  rfl

/-- Or of two classes, if their names differ. -/
theorem archiveOf_pair {version : Version} {c c' : ClassDecl} {e e' : ClassEntry}
    (made : classEntry version c = .ok e) (made' : classEntry version c' = .ok e')
    (different : e.path ≠ e'.path) : archiveOf version [c, c']
      = .ok ⟨(Archive.empty.added.insert e.path e.bytes).insert e'.path e'.bytes⟩ := by
  have other : (e'.path == manifestPath) = false := beq_false_of_ne (path_ne_manifestPath e'.name)
  have nothing : Archive.empty.added.contains e'.path = false := Std.TreeMap.contains_emptyc
  have free : Archive.isTaken ⟨Archive.empty.added.insert e.path e.bytes⟩ e'.path = false := by
    rw [Archive.isTaken, other, Bool.false_or, Std.TreeMap.contains_insert, nothing, Bool.or_false]
    exact beq_false_of_ne fun same => different (Std.LawfulEqCmp.eq_of_compare same)
  rw [archiveOf, List.foldlM_cons, addClass_empty made]
  dsimp only [bind, Except.bind]
  rw [List.foldlM_cons, addClass_of_free made' free]
  rfl

/-! ## Class files -/

/-- A class is translated where its type has a name and its parts can be made. -/
theorem classEntry_eq_ok {version : Version} {c : ClassDecl} {e : ClassEntry} :
    classEntry version c = .ok e ↔ c.type.className? = some e.name
      ∧ ∃ parts pool, partsOf e.name c ConstantPool.empty = (.ok parts, pool)
        ∧ e.bytes = ClassFile.encode version pool parts := by
  rw [classEntry]
  constructor
  · intro made
    split at made
    · cases made
    · split at made
      · cases made
        exact ⟨‹_›, _, _, ‹_›, rfl⟩
      · cases made
  · rintro ⟨named, parts, pool, result, bytes⟩
    rw [named]
    dsimp only
    rw [result]
    dsimp only
    rw [← bytes]

/-- The texts that the class file of a class holds. -/
def textsOf (c : ClassDecl) : List String :=
  match c.type.className? with
  | none => []
  | some name => (partsOf name c ConstantPool.empty).2.constants.toList.filterMap fun k =>
      match k with
      | .utf8 s => some s
      | _ => none

/-- What the class file of a class holds can be counted: the bytes of each text,
and the items of each list. -/
structure Countable (c : ClassDecl) : Prop where
  texts : ∀ s ∈ textsOf c, (Text.ModifiedUtf8.encode s).length ≤ 65535
  interfaces : c.interfaces.length < 65536
  fields : c.fields.length < 65536
  methods : c.methods.length < 65536

/-- A class file says what its class says. -/
theorem classEntry_read {version : Version} {c : ClassDecl} {e : ClassEntry}
    (made : classEntry version c = .ok e) (translatable : ∀ m ∈ c.methods, Translatable m)
    (countable : Countable c) (short : e.bytes.length < 2 ^ 32) :
    c.type.className? = some e.name
      ∧ Grammar.read e.bytes = some (classOutline version e.name c) := by
  obtain ⟨known, x, pool, result, bytes⟩ := classEntry_eq_ok.mp made
  have parts := partsOf_meets version e.name translatable ConstantPool.empty
    ConstantPool.wellFormed_empty trivial
  have texts := countable.texts
  rw [textsOf, known] at texts
  dsimp only at texts
  rw [result] at parts texts
  obtain ⟨wf, _, means⟩ := parts
  rw [bytes] at short ⊢
  refine ⟨known, Grammar.read_encode wf (fun k mem s same => ?_) means rfl ?_ short⟩
  · subst same
    exact Nat.lt_succ_of_le (texts s (List.mem_filterMap.mpr ⟨_, mem, rfl⟩))
  · simp only [classOutline, List.length_map]
    exact ⟨countable.interfaces, countable.fields, countable.methods⟩

/-! ## The same class, its members in some order -/

/-- Two classes differ in nothing but the order of their members. -/
structure SameUpToOrder (k l : Grammar.Class) : Prop where
  version : k.version = l.version
  flags : k.flags = l.flags
  name : k.name = l.name
  superclass : k.superclass = l.superclass
  interfaces : k.interfaces = l.interfaces
  fields : k.fields.Perm l.fields
  methods : k.methods.Perm l.methods

/-- A stub has the outline of its method. -/
theorem methodOutline_stubbed {m n : Method} (made : m.stubbed = .ok n) :
    methodOutline n = methodOutline m := by
  rcases Method.stubbed_eq_ok.mp made with ⟨_, rfl⟩ | ⟨_, _, _, rfl⟩
  · rfl
  · rfl

/-- So it is with all methods of a class. -/
theorem methods_outline {ms ns : List Method}
    (each : List.Forall₂ (fun m n => m.stubbed = .ok n) ms ns) :
    ((normalMethods ns).map methodOutline).Perm (ms.map methodOutline) := by
  have same : ns.map methodOutline = ms.map methodOutline := by
    induction each with
    | nil => rfl
    | cons head _ ih => rw [List.map_cons, List.map_cons, methodOutline_stubbed head, ih]
  rw [← same]
  exact ((normalMethods_perm ns).map methodOutline).trans (by
    rw [List.map_map]
    exact .refl _)

/-- The fields that are read have the outlines of those that were written. -/
theorem handOut_outline (noted : FieldRef → List Dalvik.Annotation) (values : List Value)
    (fields : List Field) :
    (Container.handOut noted values fields).map fieldOutline = fields.map fieldOutline := by
  induction fields generalizing noted values with
  | nil => rfl
  | cons x fields ih => rw [Container.handOut, List.map_cons, List.map_cons, ih]; rfl

/-- All fields of a class are among them. -/
theorem fields_outline (noted : FieldRef → List Dalvik.Annotation) (fields : List Field) :
    ((Container.readFields noted fields).map fieldOutline).Perm (fields.map fieldOutline) := by
  rw [Container.readFields, List.map_append, handOut_outline, handOut_outline, ← List.map_append]
  exact (((Order.sortOnKeys_perm _ _).append (Order.sortOnKeys_perm _ _)).trans
    (List.filter_append_perm _ fields)).map _

/-- A class with stubs that is written and read back says what it said before. -/
theorem readClass_outline (version : Version) (name : String) {c d : ClassDecl}
    (made : c.stubbed = .ok d) (s : File) (i : Nat) :
    SameUpToOrder (classOutline version name (Container.readClass s i d))
      (classOutline version name c) := by
  obtain ⟨methods, each, rfl⟩ := ClassDecl.stubbed_eq_ok.mp made
  exact ⟨rfl, rfl, rfl, rfl, rfl, fields_outline _ _, methods_outline each⟩

/-! ## Runs -/

/-- The entry is the class file of the class: under the name of the class, it says
what the class says, the members in some order. -/
def IsClassFile (version : Version) (c : ClassDecl) (e : Entry) : Prop :=
  ∃ name k, c.type.className? = some name ∧ e.path = name ++ ".class"
    ∧ Grammar.read e.data = some k ∧ SameUpToOrder k (classOutline version name c)

/-- The classes of a file are read back from their positions, each with its
stubs. -/
theorem readClasses_related {f s : File} (made : f.stubbed = .ok s) (order : List Nat) :
    List.Forall₂ (fun c d => ∃ i e, c.stubbed = .ok e ∧ d = Container.readClass s i e)
      (order.filterMap (f.classes[·]?)) (Container.readClasses s order) := by
  obtain ⟨classes, each, rfl⟩ := File.stubbed_eq_ok.mp made
  rw [Container.readClasses]
  induction order with
  | nil => exact .nil
  | cons i order ih =>
    have length := each.length_eq
    by_cases inside : i < f.classes.length
    · have stands := List.getElem?_eq_getElem inside
      have stands' := List.getElem?_eq_getElem (length ▸ inside)
      rw [List.filterMap_cons_some stands, List.filterMap_cons_some (by rw [stands']; rfl)]
      exact .cons ⟨i, _, each.get inside (length ▸ inside), rfl⟩ ih
    · have missing := List.getElem?_eq_none (Nat.le_of_not_lt inside)
      have missing' := List.getElem?_eq_none (length ▸ Nat.le_of_not_lt inside)
      rw [List.filterMap_cons_none missing, List.filterMap_cons_none (by rw [missing']; rfl)]
      exact ih

/-- What a run on a file that lists no method twice puts into the archive: the
manifest, then a class file for each class, in ascending order of their paths. The
sizes are those that the formats can say: a class file counts its lists in two bytes,
and the size of an entry has four. -/
theorem archive_of_run {version : Version} {b : List UInt8} {f : File} {o : Output}
    (run : Output.ofContainer version b = .ok o) (read : Container.decode b = .ok f)
    (distinct : f.MethodsDistinct) (small : o.container.length < 2 ^ 32)
    (countable : ∀ g, Container.decode o.container = .ok g → ∀ c ∈ g.classes, Countable c)
    (short : ∀ e ∈ o.archive.entries, e.data.length < 2 ^ 32) :
    ∃ classes others,
      o.archive.entries = ⟨manifestPath, .deflated, Text.utf8 manifest⟩ :: others
        ∧ (others.Pairwise fun d e => d.path < e.path)
        ∧ classes.Perm f.classes ∧ List.Forall₂ (IsClassFile version) classes others := by
  obtain ⟨f', read', run⟩ := bind_eq_ok.mp run
  obtain rfl := Except.ok.inj (read.symm.trans (mapError_eq_ok.mp read'))
  obtain ⟨s, made, run⟩ := bind_eq_ok.mp run
  obtain ⟨d, written, run⟩ := bind_eq_ok.mp run
  obtain ⟨a, archived, run⟩ := bind_eq_ok.mp run
  cases run
  rw [mapError_eq_ok] at made written archived
  obtain ⟨order, _, writes⟩ := Container.encode_eq_ok.mp written
  have legible := ((Container.sound_of_decode read).stubbed made).legible
    (Container.methodsDistinct_stubbed distinct made) writes small
  have back := legible.decode_eq
  rw [archiveOfContainer, back] at archived
  obtain ⟨entries, each, perm⟩ := archiveOf_perm archived
  -- a short entry of the archive is the class file of the class that it was made of
  have told : List.Forall₂ (fun e c => e.data.length < 2 ^ 32 → IsClassFile version c e)
      (entries.map fun e => entryAt (e.path, e.bytes)) (order.filterMap (f.classes[·]?)) := by
    refine List.forall₂_map_left_iff.mpr (List.Forall₂.flip ?_)
    refine (forall₂_comp (readClasses_related made order) each).imp fun c e => ?_
    rintro ⟨k, mem, ⟨i, stubs, made, rfl⟩, entry⟩ small
    obtain ⟨known, reads⟩ := classEntry_read entry
      (translatable_of_decode ‹_› legible back _ mem) (countable _ back _ mem) small
    obtain ⟨methods, _, rfl⟩ := ClassDecl.stubbed_eq_ok.mp made
    exact ⟨e.name, _, known, rfl, reads, readClass_outline version e.name made s i⟩
  have ordered : (order.filterMap (f.classes[·]?)).Perm f.classes := by
    have positions := writes.perm
    rw [Container.length_stubbed made] at positions
    have listed := positions.filterMap (f.classes[·]?)
    rwa [Container.Hierarchy.filterMap_range] at listed
  have perm := perm.map entryAt
  rw [List.map_map] at perm
  obtain ⟨classes, related, same⟩ := List.perm_comp_forall₂ perm told
  refine ⟨classes, _, rfl, entries_ascending a, same.trans ordered, ?_⟩
  exact List.Forall₂.flip (((List.forall₂_and_left _ _).mpr
    ⟨fun e mem => short e (List.mem_cons_of_mem _ mem), related⟩).imp
    fun e c found => found.2 found.1)

/-- The constants for a class with one method that returns zero. -/
def zeroConstants : List Constant := [.utf8 "A", .classRef 1, .utf8 "m", .utf8 "()I", .utf8 "Code"]

/-- The parts of its class file. -/
def zeroParts : Parts :=
  ⟨0x21, 2, none, [], [], [⟨1, 3, 4, [⟨5, [0, 1, 0, 1, 0, 0, 0, 2, 3, 0xAC, 0, 0, 0, 0]⟩]⟩], []⟩

/-- Its class file. -/
def zeroClassFile : List UInt8 := encode Version.default (ofConstants zeroConstants) zeroParts

/-- What concerns the pool runs in a translation as it does alone. -/
theorem lift_run {α : Type} (x : PoolM ClassFile.Fault α) (p : ConstantPool) :
    (liftM x : Translator α) p = ((x p).1.mapError Fault.classFile, (x p).2) := rfl

/-- The method is a name, a descriptor and an attribute for its code. -/
theorem methodForm_zeroBody : methodForm (methodWith zeroBody) = (do
    let name ← PoolM.utf8 "m"
    let descriptor ← PoolM.utf8 "()I"
    return ⟨1, name, descriptor, [← Attribute.of (.code ⟨1, 1, [3, 0xAC], []⟩)]⟩) := by
  have stubbed : Stubbed (methodWith zeroBody) 'I' :=
    ⟨rfl, by decide, .zero, zeroBody, rfl, rfl, rfl⟩
  have code : codeOf (methodWith zeroBody) = pure ⟨1, 1, [3, 0xAC], []⟩ :=
    funext fun p => codeOf_stub stubbed p
  have coded : codeAttributes (methodWith zeroBody)
      = codeOf (methodWith zeroBody) >>= fun code => do return [← Attribute.of (.code code)] := rfl
  have exceptions : exceptionAttributes (methodWith zeroBody) = pure [] := rfl
  have common : commonAttributes (methodWith zeroBody).annotations = pure [] := rfl
  have parameters : parameterAttributes (methodWith zeroBody).parameterAnnotations = pure [] := rfl
  have lift (as : List Attribute) : (liftM (pure as : PoolM ClassFile.Fault (List Attribute))
      : Translator (List Attribute)) = pure as := rfl
  simp only [methodForm, coded, code, exceptions, common, parameters, lift, bind_assoc, pure_bind,
    List.append_nil]
  rfl

/-- The parts of its class are known. -/
theorem partsOf_zeroBody :
    partsOf "A" (classWith zeroBody) ConstantPool.empty = (.ok zeroParts, ofConstants zeroConstants) := by
  have common (p : ConstantPool) : commonAttributes [] p = (.ok [], p) := rfl
  have start : ConstantPool.empty = ofConstants [] := rfl
  simp (disch := decide) only [start, classWith, partsOf, methodForm_zeroBody, sourceAttributes,
    Attribute.of, Content.name, PoolM.classRef, PoolM.utf8, PoolM.bind_run, lift_run,
    PoolM.pure_run, common, PoolM.slot_ofConstants, slotsOf, Constant.width, List.map_nil,
    List.map_cons, List.sum_nil, List.sum_cons, List.nil_append, List.cons_append, Except.mapError,
    Option.mapM_none, List.mapM_nil, List.mapM_cons]
  rfl

/-- The class with the stub is translated. -/
theorem classEntry_zeroBody :
    classEntry Version.default (classWith zeroBody) = .ok ⟨"A", zeroClassFile⟩ :=
  classEntry_eq_ok.mpr ⟨rfl, _, _, partsOf_zeroBody, rfl⟩

theorem countable_zeroBody : Countable (classWith zeroBody) where
  texts := by
    have name : (classWith zeroBody).type.className? = some "A" := rfl
    rw [textsOf, name]
    dsimp only
    rw [partsOf_zeroBody, constants_ofConstants]
    decide
  interfaces := by decide
  fields := by decide
  methods := by decide

/-- The run makes an archive with the class file of its only class. -/
theorem archive_of_run_strayBody : ∃ o classes others,
    Output.ofContainer Version.default strayContainer = .ok o
      ∧ o.archive.entries = ⟨manifestPath, .deflated, Text.utf8 manifest⟩ :: others
      ∧ (others.Pairwise fun d e => d.path < e.path) ∧ classes.Perm [classWith strayBody]
      ∧ List.Forall₂ (IsClassFile Version.default) classes others := by
  obtain ⟨d, written, small, read⟩ := encode_zeroBody
  have archived : archiveOfContainer Version.default d
      = .ok ⟨Archive.empty.added.insert "A.class" zeroClassFile⟩ := by
    rw [archiveOfContainer, read]
    exact archiveOf_singleton classEntry_zeroBody
  have run : Output.ofContainer Version.default strayContainer = .ok ⟨d, _⟩ :=
    bind_eq_ok.mpr ⟨_, mapError_eq_ok.mpr decode_strayContainer,
      bind_eq_ok.mpr ⟨_, mapError_eq_ok.mpr stubbed_strayBody,
        bind_eq_ok.mpr ⟨d, mapError_eq_ok.mpr written,
          bind_eq_ok.mpr ⟨_, mapError_eq_ok.mpr archived, rfl⟩⟩⟩⟩
  obtain ⟨classes, others, entries, ascending, perm, each⟩ := archive_of_run run
    decode_strayContainer (regular_fileWith strayBody).methods small
    (fun g reads c hc => by
      cases read.symm.trans reads
      obtain rfl := List.mem_singleton.mp hc
      exact countable_zeroBody)
    (fun e mem => by
      rcases List.mem_cons.mp mem with rfl | other
      · decide
      · obtain rfl := List.mem_singleton.mp (other : e ∈ [⟨"A.class", .deflated, zeroClassFile⟩])
        decide)
  exact ⟨_, classes, others, run, entries, ascending, perm, each⟩

end StubJar.Translation
