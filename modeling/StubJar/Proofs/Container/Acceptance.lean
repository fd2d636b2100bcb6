import Mathlib.Data.Set.Card
import StubJar.Proofs.Container.Cycles
import StubJar.Proofs.Container.Reachable
import StubJar.Proofs.Container.WholeIndices
import StubJar.Proofs.Stub.Files

/-!
# Which files have a container

A file has a container just if every prototype it reaches has letters, its tables fit the
indices into them, its hierarchy has no cycle and its bodies are ones that a container can
hold (`File.Writable`). Otherwise the fault is that of the first of these that fails
(`File.Refused`). And the limits on the tables are not too wide: where there is a container,
no index in it is cut short (`WholeIndices`).

What a file reaches is said of the file, not of its tables: `File.reachedTypes` and the sets
beside it follow from what the file names by the references inside of it. The tables hold
these sets (`Exact`), so that their sizes are the numbers of things reached
(`size_of_items`).
-/

namespace StubJar.Dalvik

open StubJar.Container

/-! ## What a file reaches -/

namespace File

variable (f : File)

/-- The handles among the values. -/
def reachedHandles : Set MethodHandle := {h | .methodHandle h ∈ f.values}

/-- The methods that classes declare, values are, or handles are about. -/
def reachedMethods : Set MethodRef :=
  {r | (∃ c ∈ f.classes, ∃ m ∈ c.methods, m.ref = r) ∨ .method r ∈ f.values
    ∨ ∃ h ∈ f.reachedHandles, h.member = .method r}

/-- The fields that classes declare, values are or name as constants, or handles are
about. -/
def reachedFields : Set FieldRef :=
  {r | (∃ c ∈ f.classes, ∃ m ∈ c.fields, m.ref = r) ∨ .field r ∈ f.values ∨ .enum r ∈ f.values
    ∨ ∃ h ∈ f.reachedHandles, h.member = .field r}

/-- The prototypes of methods, and those that are values. -/
def reachedPrototypes : Set Prototype :=
  {q | .methodType q ∈ f.values ∨ ∃ r ∈ f.reachedMethods, r.prototype = q}

/-- The types of classes and of what they build on, of annotations, of members and in
prototypes, and those that are values. -/
def reachedTypes : Set Descriptor :=
  {d | (∃ c ∈ f.classes, d ∈ c.type :: c.parents) ∨ (∃ a ∈ f.everyAnnotation, a.1 = d)
    ∨ .type d ∈ f.values ∨ (∃ r ∈ f.reachedFields, r.owner = d ∨ r.type = d)
    ∨ (∃ r ∈ f.reachedMethods, r.owner = d) ∨ ∃ q ∈ f.reachedPrototypes, d ∈ q.result :: q.parameters}

end File

/-! ## Conditions -/

/-- The result has a letter, and each parameter has one other than that of `void`. -/
structure Prototype.Lettered (q : Prototype) : Prop where
  result : q.result.shorty?.isSome
  parameters : ∀ d ∈ q.parameters, ∃ c, d.shorty? = some c ∧ c ≠ 'V'

/-- The code has no try blocks and is made of instructions without indices. -/
structure Body.Holdable (b : Body) : Prop where
  tries : b.tries = 0
  instructions : ∃ is, b.instructions = .ok is

/-- The indices have room for the types and prototypes and, where there are handles, for
the members. -/
structure File.Fits (f : File) : Prop where
  types : f.reachedTypes.ncard ≤ 65535
  prototypes : f.reachedPrototypes.ncard ≤ 65535
  fields : f.reachedHandles.Nonempty → f.reachedFields.ncard ≤ 65536
  methods : f.reachedHandles.Nonempty → f.reachedMethods.ncard ≤ 65536

namespace File

/-- Every prototype that is reached has letters. -/
def Lettered (f : File) : Prop := ∀ q ∈ f.reachedPrototypes, q.Lettered

/-- No class is its own ancestor. -/
def Acyclic (f : File) : Prop := ∀ i, ¬ Hierarchy.OnCycle f.classes i

/-- All that a file has to be so that there is a container. -/
structure Writable (f : File) : Prop where
  letters : f.Lettered
  fits : f.Fits
  acyclic : f.Acyclic
  bodies : ∀ c ∈ f.classes, ∀ m ∈ c.methods, ∀ b, m.body = some b → b.Holdable

/-- The first table that is too large, and its size. -/
inductive TooMany (f : File) : TableName → Nat → Prop
  | types (many : 65535 < f.reachedTypes.ncard) : TooMany f .types f.reachedTypes.ncard
  | prototypes (types : f.reachedTypes.ncard ≤ 65535) (many : 65535 < f.reachedPrototypes.ncard) :
    TooMany f .prototypes f.reachedPrototypes.ncard
  | fields (types : f.reachedTypes.ncard ≤ 65535) (prototypes : f.reachedPrototypes.ncard ≤ 65535)
    (handles : f.reachedHandles.Nonempty) (many : 65536 < f.reachedFields.ncard) :
    TooMany f .fields f.reachedFields.ncard
  | methods (types : f.reachedTypes.ncard ≤ 65535) (prototypes : f.reachedPrototypes.ncard ≤ 65535)
    (handles : f.reachedHandles.Nonempty) (fields : f.reachedFields.ncard ≤ 65536)
    (many : 65536 < f.reachedMethods.ncard) : TooMany f .methods f.reachedMethods.ncard

/-- Why a file has no container: the first condition that fails, and the fault for it. -/
inductive Refused (f : File) : EncodeFault → Prop
  | letters {q : Prototype} (reached : q ∈ f.reachedPrototypes) (fails : ¬ q.Lettered) :
    Refused f (.malformedDescriptor q.render)
  | sizes {table : TableName} {count : Nat} (letters : f.Lettered) (fails : f.TooMany table count) :
    Refused f (.tooManyItems table count)
  | hierarchy {i : Nat} {c : ClassDecl} (letters : f.Lettered) (fits : f.Fits)
    (stands : f.classes[i]? = some c) (fails : Hierarchy.OnCycle f.classes i) :
    Refused f (.cyclicHierarchy c.type.text)
  | tries {c : ClassDecl} {m : Method} {b : Body} (letters : f.Lettered) (fits : f.Fits)
    (acyclic : f.Acyclic) (hc : c ∈ f.classes) (hm : m ∈ c.methods) (has : m.body = some b)
    (fails : b.tries ≠ 0) : Refused f (.tryBlocks m.ref.render)
  | units {c : ClassDecl} {m : Method} {b : Body} {reason : InstructionFault} (letters : f.Lettered)
    (fits : f.Fits) (acyclic : f.Acyclic) (hc : c ∈ f.classes) (hm : m ∈ c.methods)
    (has : m.body = some b) (tries : b.tries = 0) (fails : b.instructions = .error reason) :
    Refused f (.unsupportedBody m.ref.render reason)

end File

/-! ## Letters -/

/-- Parameters have letters if each of them has one. -/
theorem mapM_parameterShorty? {ds : List Descriptor} :
    (ds.mapM Prototype.parameterShorty?).isSome ↔ ∀ d ∈ ds, (Prototype.parameterShorty? d).isSome := by
  induction ds with
  | nil => simp
  | cons d ds ih =>
    rw [List.mapM_cons, List.forall_mem_cons, ← ih]
    cases Prototype.parameterShorty? d with
    | none => simp
    | some c =>
      cases ds.mapM Prototype.parameterShorty? with
      | none => simp
      | some cs => simp

/-- A prototype has letters if all of its types have. -/
theorem Prototype.shorty?_isSome {q : Prototype} : q.shorty?.isSome ↔ q.Lettered := by
  have parameter (d : Descriptor) : (Prototype.parameterShorty? d).isSome
      ↔ ∃ c, d.shorty? = some c ∧ c ≠ 'V' := by
    rw [Prototype.parameterShorty?, Option.isSome_iff_exists]
    simp [Option.filter_eq_some_iff]
  have both : q.shorty?.isSome
      ↔ q.result.shorty?.isSome ∧ (q.parameters.mapM Prototype.parameterShorty?).isSome := by
    rw [Prototype.shorty?]
    cases q.result.shorty? with
    | none => simp
    | some c =>
      cases q.parameters.mapM Prototype.parameterShorty? with
      | none => simp
      | some cs => simp
  rw [both, mapM_parameterShorty?]
  simp only [parameter]
  exact ⟨fun ⟨result, parameters⟩ => ⟨result, parameters⟩, fun h => ⟨h.result, h.parameters⟩⟩

end StubJar.Dalvik

namespace StubJar.Container

open StubJar.Dalvik StubJar.Order

/-! ## The tables hold what is reached -/

section Reached

variable {f : File}

/-- The table of handles holds those that are reached. -/
theorem handle_reached {h : MethodHandle} : h ∈ (poolOf f).handles.items ↔ h ∈ f.reachedHandles :=
  (exact_poolOf f).handles h

/-- That of methods holds those that are reached, those of handles among them. -/
theorem method_reached {r : MethodRef} : r ∈ (poolOf f).methods.items ↔ r ∈ f.reachedMethods := by
  simp only [(exact_poolOf f).methods, handle_reached]
  rfl

theorem field_reached {r : FieldRef} : r ∈ (poolOf f).fields.items ↔ r ∈ f.reachedFields := by
  simp only [(exact_poolOf f).fields, handle_reached]
  rfl

/-- That of prototypes holds those of values and of methods. -/
theorem prototype_reached {q : Prototype} :
    q ∈ (poolOf f).prototypes.items ↔ q ∈ f.reachedPrototypes := by
  simp only [(exact_poolOf f).prototypes, method_reached]
  rfl

/-- That of types holds all that any of these are made of. -/
theorem type_reached {d : Descriptor} : d ∈ (poolOf f).types.items ↔ d ∈ f.reachedTypes := by
  simp only [(exact_poolOf f).types, field_reached, method_reached, prototype_reached]
  rfl

/-- A table that holds the things of a set, each of them once, has their number as its size. -/
theorem size_of_items {α : Type} [BEq α] [Hashable α] {table : Table α} {things : Set α}
    (once : table.items.Nodup) (held : ∀ {a}, a ∈ table.items ↔ a ∈ things) :
    table.size = things.ncard := by
  classical
  have same : things = (table.items.toFinset : Set α) := by
    ext a
    rw [List.coe_toFinset, ← held]
    rfl
  rw [same, Set.ncard_coe_finset, List.toFinset_card_of_nodup once, Table.size]

/-- As many types are held as are reached. -/
theorem size_types : (poolOf f).types.size = f.reachedTypes.ncard :=
  size_of_items (exact_poolOf f).types_once type_reached

/-- As many prototypes. -/
theorem size_prototypes : (poolOf f).prototypes.size = f.reachedPrototypes.ncard :=
  size_of_items (exact_poolOf f).prototypes_once prototype_reached

/-- As many fields. -/
theorem size_fields : (poolOf f).fields.size = f.reachedFields.ncard :=
  size_of_items (exact_poolOf f).fields_once field_reached

/-- As many methods. -/
theorem size_methods : (poolOf f).methods.size = f.reachedMethods.ncard :=
  size_of_items (exact_poolOf f).methods_once method_reached

/-- Handles are held if any are reached. -/
theorem size_handles : (poolOf f).handles.size ≠ 0 ↔ f.reachedHandles.Nonempty := by
  rw [Table.size, ← Nat.pos_iff_ne_zero, List.length_pos_iff_exists_mem]
  exact exists_congr fun h => handle_reached

end Reached

/-! ## The checks -/

section Checks

variable {f : File} {fault : EncodeFault}

/-- All prototypes have letters if those that are reached have. -/
theorem letters_iff : (∀ q ∈ f.mentions.flatMap Mention.prototypes, q.shorty?.isSome) ↔ f.Lettered := by
  refine forall_congr' fun q => ?_
  rw [Prototype.shorty?_isSome, ← prototype_reached]
  exact imp_congr_left (Table.mem_items _).symm

/-- The tables pass the check of their sizes if what is reached fits. -/
theorem checkSizes_iff : (poolOf f).checkSizes = .ok () ↔ f.Fits := by
  rw [checkSizes_eq_ok, size_types, size_prototypes, size_fields, size_methods, size_handles]
  constructor
  · rintro ⟨types, prototypes, members⟩
    exact ⟨types, prototypes, fun some => (members some).1, fun some => (members some).2⟩
  · exact fun h => ⟨h.types, h.prototypes, fun some => ⟨h.fields some, h.methods some⟩⟩

/-- A table is refused if it has more items than the limit, and the fault counts them. -/
theorem checkSize_eq_error {table : TableName} {limit count : Nat} :
    Pool.checkSize table limit count = .error fault
      ↔ limit < count ∧ fault = .tooManyItems table count := by
  rw [Pool.checkSize]
  split
  · rename_i many
    exact ⟨fun h => ⟨many, (Except.error.inj h).symm⟩, fun h => h.2 ▸ rfl⟩
  · rename_i few
    constructor
    · intro h
      cases h
    · exact fun h => absurd h.1 few

/-- The sizes are checked one after the other, so the fault is about the first table that is
too large. -/
theorem tooMany_of_checkSizes (h : (poolOf f).checkSizes = .error fault) :
    ∃ table count, f.TooMany table count ∧ fault = .tooManyItems table count := by
  rw [Pool.checkSizes, size_types, size_prototypes, size_fields, size_methods] at h
  rcases bind_eq_error.mp h with h | ⟨_, types, h⟩
  · obtain ⟨many, rfl⟩ := checkSize_eq_error.mp h
    exact ⟨_, _, .types many, rfl⟩
  have types := checkSize_eq_ok.mp types
  rcases bind_eq_error.mp h with h | ⟨_, prototypes, h⟩
  · obtain ⟨many, rfl⟩ := checkSize_eq_error.mp h
    exact ⟨_, _, .prototypes types many, rfl⟩
  have prototypes := checkSize_eq_ok.mp prototypes
  split at h
  · rename_i handles
    have handles := size_handles.mp handles
    rcases bind_eq_error.mp h with h | ⟨_, fields, h⟩
    · obtain ⟨many, rfl⟩ := checkSize_eq_error.mp h
      exact ⟨_, _, .fields types prototypes handles many, rfl⟩
    · obtain ⟨many, rfl⟩ := checkSize_eq_error.mp h
      exact ⟨_, _, .methods types prototypes handles (checkSize_eq_ok.mp fields) many, rfl⟩
  · cases h

/-- Collecting the tables fails for letters, or else for sizes. -/
theorem refused_of_ofFile (h : Pool.ofFile f = .error fault) : f.Refused fault := by
  rw [Pool.ofFile] at h
  split at h
  · rename_i q found
    cases h
    have reached := prototype_reached.mp ((Table.mem_items _).mpr (List.mem_of_find?_eq_some found))
    have none := List.find?_some found
    refine .letters reached fun lettered => ?_
    have some := Prototype.shorty?_isSome.mpr lettered
    rw [Option.isNone_iff_eq_none.mp none] at some
    cases some
  · rename_i none
    have letters : f.Lettered := letters_iff.mp fun q hq => by
      simpa [Option.isSome_iff_ne_none] using List.find?_eq_none.mp none q hq
    rcases bind_eq_error.mp h with sizes | ⟨_, _, h⟩
    · obtain ⟨table, count, many, rfl⟩ := tooMany_of_checkSizes sizes
      exact .sizes letters many
    · cases h

/-- A body passes the check if it can be held. -/
theorem checkBody_eq_ok {m : Method} {b : Body} : checkBody m b = .ok () ↔ b.Holdable := by
  rw [checkBody]
  split
  · rename_i tries
    constructor
    · intro h
      cases h
    · exact fun h => absurd h.tries (UInt16.pos_iff_ne_zero.mp tries)
  · rename_i tries
    have none : b.tries = 0 := by simpa [UInt16.pos_iff_ne_zero] using tries
    split
    · rename_i is made
      exact ⟨fun _ => ⟨none, is, made⟩, fun _ => rfl⟩
    · rename_i reason fails
      constructor
      · intro h
        cases h
      · intro h
        obtain ⟨is, made⟩ := h.instructions
        cases made.symm.trans fails

/-- So it is with all bodies of a file. -/
theorem checkBodies_iff : checkBodies (bodies (placedOf f)) = .ok () ↔
    ∀ c ∈ f.classes, ∀ m ∈ c.methods, ∀ b, m.body = some b → b.Holdable := by
  simp only [checkBodies_eq_ok, checkBody_eq_ok]

/-- Behind the tables and the hierarchy only bodies are refused. -/
theorem refused_of_checkBodies (letters : f.Lettered) (fits : f.Fits) (acyclic : f.Acyclic)
    (h : checkBodies (bodies (placedOf f)) = .error fault) : f.Refused fault := by
  obtain ⟨⟨i, m, b⟩, mem, failed⟩ := forM_eq_error h
  obtain ⟨c, hc, hm, has⟩ := mem_bodies_placedOf.mp ⟨i, mem⟩
  have h : checkBody m b = .error fault := failed
  rw [checkBody] at h
  split at h
  · rename_i tries
    cases h
    exact .tries letters fits acyclic hc hm has (UInt16.pos_iff_ne_zero.mp tries)
  · rename_i tries
    split at h
    · cases h
    · rename_i reason fails
      cases h
      exact .units letters fits acyclic hc hm has (by simpa [UInt16.pos_iff_ne_zero] using tries) fails

end Checks

/-! ## Writing -/

section Writing

variable {f : File} {fault : EncodeFault}

/-- A file is written exactly if it is writable. -/
theorem exists_encode_iff : (∃ b, encode f = .ok b) ↔ f.Writable := by
  simp only [encode_eq_ok]
  constructor
  · rintro ⟨b, order, run, h⟩
    refine ⟨letters_iff.mp h.letters, checkSizes_iff.mp h.sizes, fun i => ?_, checkBodies_iff.mp h.checked⟩
    exact Hierarchy.not_onCycle_of_ok run
  · intro h
    obtain ⟨order, run⟩ := Hierarchy.exists_order_iff.mpr fun ⟨i, cycle⟩ => h.acyclic i cycle
    exact ⟨_, order, run, letters_iff.mpr h.letters, checkSizes_iff.mpr h.fits, Hierarchy.order_perm run,
      checkBodies_iff.mpr h.bodies, rfl⟩

/-- A fault of the writer is one for which the file is refused. -/
theorem refused_of_encode (h : encode f = .error fault) : f.Refused fault := by
  rw [encode] at h
  rcases bind_eq_error.mp h with tables | ⟨p, tables, h⟩
  · exact refused_of_ofFile tables
  obtain ⟨rfl, sizes, letters⟩ := ofFile_eq_ok.mp tables
  have letters := letters_iff.mp letters
  have fits := checkSizes_iff.mp sizes
  rcases bind_eq_error.mp h with hierarchy | ⟨order, run, h⟩
  · obtain ⟨i, c, stands, cycle, rfl⟩ := Hierarchy.onCycle_of_error hierarchy
    exact .hierarchy letters fits stands cycle
  rcases bind_eq_error.mp h with refused | ⟨_, _, h⟩
  · exact refused_of_checkBodies letters fits (fun i => Hierarchy.not_onCycle_of_ok run) refused
  · cases h

end Writing

/-- Which files have a container, why the others have none, and that no index of two bytes is
cut short where there is one. -/
theorem encode_determined (f : File) :
    ((∃ b, encode f = .ok b) ↔ f.Writable)
    ∧ (∀ fault, encode f = .error fault → f.Refused fault)
    ∧ ∀ b, encode f = .ok b → 35 ≤ f.version ∧ f.version ≤ 39 → b.length < 2 ^ 32 →
      ∃ order, Hierarchy.order f.classes = .ok order ∧ WholeIndices f order b := by
  refine ⟨exists_encode_iff, fun _ => refused_of_encode, fun b written known small => ?_⟩
  obtain ⟨order, run, h⟩ := encode_eq_ok.mp written
  exact ⟨order, run, h.wholeIndices known small⟩

/-- A class in front of its superclass has a container; two that extend each other are
refused. -/
theorem encode_determined_shuffledFile :
    (∃ b order, encode shuffledFile = .ok b ∧ b.length < 2 ^ 32 ∧ WholeIndices shuffledFile order b)
    ∧ ∃ fault, encode ⟨35, Hierarchy.loop⟩ = .error fault ∧ File.Refused ⟨35, Hierarchy.loop⟩ fault := by
  constructor
  · obtain ⟨b, written, _, small⟩ := encode_shuffledFile
    obtain ⟨order, _, whole⟩ := (encode_determined shuffledFile).2.2 b written (by decide) small
    exact ⟨b, order, written, small, whole⟩
  · cases result : encode ⟨35, Hierarchy.loop⟩ with
    | ok b =>
      have writable := (encode_determined ⟨35, Hierarchy.loop⟩).1.mp ⟨b, result⟩
      exact absurd Hierarchy.onCycle_loop (writable.acyclic 0)
    | error fault => exact ⟨fault, rfl, (encode_determined _).2.1 fault result⟩

end StubJar.Container
