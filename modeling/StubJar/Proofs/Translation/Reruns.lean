import StubJar.Proofs.Translation.Independence

/-!
# Runs on what a run has made

Stubs are stubs of themselves (`File.stubbed_reread`), so a run on the container of an
output only reads that container and writes it again. Its archive is that of the first
run (`run_again`). Its container is another one in general: a container lists its classes
in the order of their hierarchy and places the items of each in the order in which the
classes were given, and the first run read them in the one order and wrote them in the
other. The second run finds both orders the same, so its output is a fixed point.

Where the classes were settled at the start, so is the first output
(`isFixedPoint_of_settled`).
-/

namespace StubJar.Translation

open StubJar.Dalvik StubJar.ClassFile StubJar.Jar StubJar.Container

/-! ## Stubs of stubs -/

section Stubs

variable {m n : Method} {c d : ClassDecl} {f s : File}

/-- A stub is made of what a normal form leaves alone, and is no part of a normal form. -/
theorem stubbed_normal (made : m.stubbed = .ok n) : n.normal.stubbed = .ok n.normal := by
  rcases Method.stubbed_eq_ok.mp made with ⟨bodiless, rfl⟩ | ⟨other, body, stub, rfl⟩
  · exact Method.stubbed_eq_ok.mpr (.inl ⟨bodiless, rfl⟩)
  · have bare : (⟨m.ref, m.flags, [], [], some body⟩ : Method).normal
        = ⟨m.ref, m.flags, [], [], some body⟩ := by
      simp only [Method.normal, normalSet_nil, List.map_nil]
    rw [bare]
    exact Method.stubbed_eq_ok.mpr (.inr ⟨other, body, stub, rfl⟩)

/-- A class of stubs that is read is its own stub. -/
theorem stubbed_readClass (made : c.stubbed = .ok d) (i : Nat) :
    (readClass s i d).stubbed = .ok (readClass s i d) := by
  obtain ⟨methods, each, rfl⟩ := ClassDecl.stubbed_eq_ok.mp made
  refine ClassDecl.stubbed_eq_ok.mpr ⟨normalMethods methods, ?_, rfl⟩
  refine List.forall₂_same.mpr fun n hn => ?_
  obtain ⟨n', hn', rfl⟩ := List.mem_map.mp ((normalMethods_perm methods).subset hn)
  obtain ⟨m, _, made⟩ := exists_of_mem_right each hn'
  exact stubbed_normal made

/-- A file with stubs that was read back is the file with its stubs. -/
theorem stubbed_reread (made : f.stubbed = .ok s) (order : List Nat) :
    (reread s order).stubbed = .ok (reread s order) := by
  refine File.stubbed_eq_ok.mpr ⟨(reread s order).classes, ?_, rfl⟩
  refine List.forall₂_same.mpr fun e he => ?_
  obtain ⟨i, _, d, stands, rfl⟩ := mem_reread.mp he
  obtain ⟨classes, each, rfl⟩ := File.stubbed_eq_ok.mp made
  obtain ⟨c, _, made⟩ := exists_of_mem_right each (List.mem_of_getElem? stands)
  exact stubbed_readClass made i

/-- Stubs are no matter to whether a file is settled. -/
theorem settled_stubbed (settled : Settled f) (made : f.stubbed = .ok s) : Settled s := by
  obtain ⟨classes, each, rfl⟩ := File.stubbed_eq_ok.mp made
  have same {i : Nat} {d : ClassDecl} (stands : classes[i]? = some d) :
      ∃ c, f.classes[i]? = some c ∧ d.type = c.type ∧ d.parents = c.parents ∧ d.fields = c.fields := by
    obtain ⟨c, stands', made⟩ := exists_of_getElem?_right each stands
    obtain ⟨methods, _, rfl⟩ := ClassDecl.stubbed_eq_ok.mp made
    exact ⟨c, stands', rfl, rfl, rfl⟩
  have listed {d : ClassDecl} (hd : d ∈ classes) : ∃ c ∈ f.classes, d.fields = c.fields := by
    obtain ⟨i, stands⟩ := List.getElem?_of_mem hd
    obtain ⟨c, stands, _, _, fields⟩ := same stands
    exact ⟨c, List.mem_of_getElem? stands, fields⟩
  refine ⟨fun i j d e hd he parent => ?_, fun d hd => ?_, fun d hd => ?_⟩
  · obtain ⟨c, hc, _, parents, _⟩ := same hd
    obtain ⟨b, hb, type, _, _⟩ := same he
    exact settled.ordered i j c b hc hb (by rwa [← parents, ← type])
  · obtain ⟨c, hc, fields⟩ := listed hd
    rw [ClassDecl.FieldsDistinct, fields]
    exact settled.distinct c hc
  · obtain ⟨c, hc, fields⟩ := listed hd
    rw [fields]
    exact settled.initials c hc

end Stubs

/-! ## Classes of an archive -/

section Types

variable {version : Version} {classes : List ClassDecl} {a : Archive}

/-- An archive has one entry for a path, so its classes have different types. -/
theorem types_nodup (made : archiveOf version classes = .ok a) :
    (classes.map ClassDecl.type).Nodup := by
  obtain ⟨entries, each, perm⟩ := archiveOf_perm made
  have paths : (a.added.toList.map Prod.fst).Nodup := by
    refine List.pairwise_map.mpr ((List.pairwise_map.mp (entries_ascending a)).imp ?_)
    intro x y before same
    rw [entryAt, entryAt, same] at before
    exact String.lt_irrefl _ before
  rw [(perm.map Prod.fst).nodup_iff, List.map_map] at paths
  have names : (entries.map ClassEntry.name).Nodup := by
    refine List.Nodup.of_map (· ++ ".class") ?_
    rw [List.map_map]
    exact paths
  have named : (classes.map ClassDecl.type).map Descriptor.className?
      = (entries.map ClassEntry.name).map some := by
    rw [List.map_map, List.map_map, ← List.forall₂_eq_eq_eq]
    exact List.forall₂_map_left_iff.mpr (List.forall₂_map_right_iff.mpr
      (each.imp fun c e made => (classEntry_eq_ok.mp made).1))
  refine List.Nodup.of_map Descriptor.className? ?_
  rw [named]
  exact names.map fun _ _ => Option.some.inj

/-- The classes that are read again have the types of those that were written. -/
theorem types_reread (f : File) {order : List Nat} (perm : order.Perm (List.range f.classes.length)) :
    ((reread f order).classes.map ClassDecl.type).Perm (f.classes.map ClassDecl.type) := by
  have listed := (perm.filterMap (f.classes[·]?)).map ClassDecl.type
  rw [Hierarchy.filterMap_range, List.map_filterMap] at listed
  show ((readClasses f order).map ClassDecl.type).Perm _
  rw [readClasses, List.map_filterMap]
  simp only [Option.map_map]
  exact listed

end Types

/-! ## Runs -/

section Runs

variable {version : Version} {b d : List UInt8} {f s : File} {order : List Nat} {o : Output}

/-- What stands behind an output: a file with stubs that is written to the container and can
be read back, and the archive of what is read back. -/
structure Ran (version : Version) (s : File) (order : List Nat) (o : Output) : Prop where
  again : (reread s order).stubbed = .ok (reread s order)
  written : encode s = .ok o.container
  ordered : Hierarchy.order s.classes = .ok order
  legible : Legible s order o.container
  archived : archiveOf version (reread s order).classes = .ok o.archive

namespace Ran

/-- A run on a file that lists no method twice has a legible file behind its output. -/
theorem of_run (run : Output.ofContainer version b = .ok o) (read : decode b = .ok f)
    (distinct : f.MethodsDistinct) (small : o.container.length < 2 ^ 32) :
    ∃ s order, f.stubbed = .ok s ∧ Ran version s order o := by
  obtain ⟨f', read', run⟩ := bind_eq_ok.mp run
  obtain rfl := Except.ok.inj (read.symm.trans (mapError_eq_ok.mp read'))
  obtain ⟨s, made, run⟩ := bind_eq_ok.mp run
  obtain ⟨d, written, run⟩ := bind_eq_ok.mp run
  obtain ⟨a, archived, run⟩ := bind_eq_ok.mp run
  cases run
  rw [mapError_eq_ok] at made written archived
  obtain ⟨order, ordered, writes⟩ := encode_eq_ok.mp written
  have legible := ((sound_of_decode read).stubbed made).legible
    (methodsDistinct_stubbed distinct made) writes small
  rw [archiveOfContainer, legible.decode_eq] at archived
  exact ⟨s, order, made, stubbed_reread made order, written, ordered, legible, archived⟩

/-- The classes that were written have different types. -/
theorem types (h : Ran version s order o) : (s.classes.map ClassDecl.type).Nodup :=
  (types_reread s h.legible.perm).nodup_iff.mp (types_nodup h.archived)

/-- A run on a container from which the same is read writes what was read. -/
theorem run_of_decode (h : Ran version s order o) (read : decode b = .ok (reread s order))
    (written : encode (reread s order) = .ok d) (back : decode d = .ok (reread s order)) :
    Output.ofContainer version b = .ok ⟨d, o.archive⟩ := by
  have archived : archiveOfContainer version d = .ok o.archive := by
    rw [archiveOfContainer, back]
    exact h.archived
  refine bind_eq_ok.mpr ⟨_, mapError_eq_ok.mpr read, bind_eq_ok.mpr ⟨_, mapError_eq_ok.mpr h.again, ?_⟩⟩
  refine bind_eq_ok.mpr ⟨d, mapError_eq_ok.mpr written, ?_⟩
  exact bind_eq_ok.mpr ⟨_, mapError_eq_ok.mpr archived, rfl⟩

end Ran

/-- A run that makes the same output makes a fixed point. -/
theorem isFixedPoint_of_run (run : Output.ofContainer version o.container = .ok o) :
    o.isFixedPoint version = true := by
  rw [Output.isFixedPoint, run]
  simp only [Output.same, BEq.rfl, Bool.and_self]

/-- A run on what a run has made makes the same archive, and a container that is written as
what is read back. From then on the output is a fixed point. -/
theorem run_again (run : Output.ofContainer version b = .ok o) (read : decode b = .ok f)
    (distinct : f.MethodsDistinct) (small : o.container.length < 2 ^ 32) :
    ∃ g d, decode o.container = .ok g ∧ encode g = .ok d
      ∧ (d.length < 2 ^ 32 → Output.ofContainer version o.container = .ok ⟨d, o.archive⟩
        ∧ (⟨d, o.archive⟩ : Output).isFixedPoint version = true) := by
  obtain ⟨s, order, _, ran⟩ := Ran.of_run run read distinct small
  obtain ⟨d, written⟩ := ran.legible.encode_reread ran.ordered ran.types
  refine ⟨reread s order, d, ran.legible.decode_eq, written, fun small' => ?_⟩
  have back := ran.legible.decode_again ran.ordered ran.types written small'
  exact ⟨ran.run_of_decode ran.legible.decode_eq written back,
    isFixedPoint_of_run (ran.run_of_decode back written back)⟩

/-- An output is a fixed point just where its container is written as what is read back. -/
theorem isFixedPoint_iff {g : File} (run : Output.ofContainer version b = .ok o)
    (read : decode b = .ok f) (distinct : f.MethodsDistinct) (small : o.container.length < 2 ^ 32)
    (back : decode o.container = .ok g) :
    o.isFixedPoint version = true ↔ encode g = .ok o.container := by
  obtain ⟨s, order, _, ran⟩ := Ran.of_run run read distinct small
  obtain rfl := Except.ok.inj (ran.legible.decode_eq.symm.trans back)
  constructor
  · intro fixed
    rw [Output.isFixedPoint] at fixed
    split at fixed
    · rename_i again rerun
      obtain ⟨f', read', rerun⟩ := bind_eq_ok.mp rerun
      obtain rfl := Except.ok.inj (back.symm.trans (mapError_eq_ok.mp read'))
      obtain ⟨s', made, rerun⟩ := bind_eq_ok.mp rerun
      obtain rfl := Except.ok.inj (ran.again.symm.trans (mapError_eq_ok.mp made))
      obtain ⟨d, written, rerun⟩ := bind_eq_ok.mp rerun
      obtain ⟨a, _, rerun⟩ := bind_eq_ok.mp rerun
      cases rerun
      rw [Output.same, Bool.and_eq_true] at fixed
      obtain rfl : d = o.container := eq_of_beq fixed.1
      exact mapError_eq_ok.mp written
    · cases fixed
  · intro same
    exact isFixedPoint_of_run (ran.run_of_decode back same back)

/-- The output for a settled file is a fixed point. -/
theorem isFixedPoint_of_settled (run : Output.ofContainer version b = .ok o)
    (read : decode b = .ok f) (distinct : f.MethodsDistinct) (small : o.container.length < 2 ^ 32)
    (settled : Settled f) : o.isFixedPoint version = true := by
  obtain ⟨s, order, made, ran⟩ := Ran.of_run run read distinct small
  have settled := settled_stubbed settled made
  obtain rfl := Except.ok.inj ((Hierarchy.order_of_parentsFirst settled.ordered).symm.trans ran.ordered)
  exact (isFixedPoint_iff run read distinct small ran.legible.decode_eq).mpr
    (settled.encode_reread ran.legible.agree ran.written)

end Runs

/-- The file of two classes is settled. -/
theorem settled_strangerFile : Settled strangerFile where
  ordered := Hierarchy.parentsFirst_of_getElem (by decide)
  distinct := (by decide : strangerFile.Regular).fields
  initials := by decide

/-- Its output is a fixed point. -/
theorem isFixedPoint_of_settled_strangerFile : ∃ b o, encode strangerFile = .ok b
    ∧ Output.ofContainer Version.default b = .ok o ∧ o.isFixedPoint Version.default = true := by
  obtain ⟨b, a, written, small, read, archived⟩ := archive_of_strangerFile
  rw [normal_strangerFile] at read
  have made : strangerFile.stubbed = .ok strangerFile := rfl
  have run : Output.ofContainer Version.default b = .ok ⟨b, a⟩ :=
    bind_eq_ok.mpr ⟨_, mapError_eq_ok.mpr read, bind_eq_ok.mpr ⟨_, mapError_eq_ok.mpr made,
      bind_eq_ok.mpr ⟨b, mapError_eq_ok.mpr written, bind_eq_ok.mpr ⟨_, mapError_eq_ok.mpr archived, rfl⟩⟩⟩⟩
  have distinct := (by decide : strangerFile.Regular).methods
  exact ⟨b, _, written, run, isFixedPoint_of_settled run read distinct small settled_strangerFile⟩

end StubJar.Translation
