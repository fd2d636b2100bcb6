import StubJar.Output
import StubJar.Proofs.Container.Rearranging
import StubJar.Proofs.Stub.Refusals
import StubJar.Proofs.Translation.Archives

/-!
# Bodies leave no trace

What a run makes of a file does not depend on what its stubs replace: two files that are
alike but for the bodies and the annotations of methods that get stubs have the same
stubs, or the same fault (`File.stubbed_congr`), and everything behind that step sees
nothing else of them. So two runs on such files can end in the same ways, whoever read the
files (`Output.oblivious`).

A run can end in more than one way (`Output.Ends`) only where two method handles share a key,
since the container is then left open (`Container.Encodes`). What was read from a container
has no such handles.
-/

namespace StubJar

open StubJar.Dalvik StubJar.ClassFile StubJar.Stub

/-! ## Files that are alike -/

namespace Dalvik

/-- The methods are the same, or get stubs and have the same reference and flags. -/
structure Method.AlikeButBody (m n : Method) : Prop where
  ref : m.ref = n.ref
  flags : m.flags = n.flags
  kept : m.flags.isBodiless = true → m = n

/-- The classes are the same but for methods that get stubs. -/
structure ClassDecl.AlikeButBodies (c d : ClassDecl) : Prop where
  rest : { c with methods := d.methods } = d
  methods : List.Forall₂ Method.AlikeButBody c.methods d.methods

/-- The files are the same but for methods that get stubs. -/
structure File.AlikeButBodies (f g : File) : Prop where
  version : f.version = g.version
  classes : List.Forall₂ ClassDecl.AlikeButBodies f.classes g.classes

variable {m n : Method} {c d : ClassDecl} {f g : File}

/-- A stub is made of the reference and the flags alone. -/
theorem stubBody_congr (ref : m.ref = n.ref) (flags : m.flags = n.flags) :
    stubBody m = stubBody n := by
  have static : m.isStatic = n.isStatic := by rw [Method.isStatic, flags, Method.isStatic]
  have ins : m.ins = n.ins := by
    rw [Method.ins, Method.receiverWidth, static, ref, Method.ins, Method.receiverWidth]
  rw [stubBody, stubBody, ref, static, ins]

/-- So methods that are alike have the same stub. -/
theorem Method.stubbed_congr (alike : m.AlikeButBody n) : m.stubbed = n.stubbed := by
  cases embodied : m.flags.isBodiless with
  | true => rw [alike.kept embodied]
  | false =>
    rw [Method.stubbed, Method.stubbed, ← alike.flags, embodied,
      stubBody_congr alike.ref alike.flags, alike.ref]
    rfl

theorem ClassDecl.stubbed_congr (alike : c.AlikeButBodies d) : c.stubbed = d.stubbed := by
  have methods : c.methods.mapM Method.stubbed = d.methods.mapM Method.stubbed :=
    mapM_eq_of_forall₂ (alike.methods.imp fun _ _ => Method.stubbed_congr)
  rw [ClassDecl.stubbed, methods, ← alike.rest]
  rfl

theorem File.stubbed_congr (alike : f.AlikeButBodies g) : f.stubbed = g.stubbed := by
  have classes : f.classes.mapM ClassDecl.stubbed = g.classes.mapM ClassDecl.stubbed :=
    mapM_eq_of_forall₂ (alike.classes.imp fun _ _ => ClassDecl.stubbed_congr)
  rw [File.stubbed, File.stubbed, classes, alike.version]

end Dalvik

/-! ## Runs -/

namespace Output

open StubJar.Container

variable {version : Version} {f g : File} {r : Except Fault Output}

/-- What is left of a run when a container is made, or refused. -/
def finish (version : Version) (written : Except EncodeFault (List UInt8)) : Except Fault Output := do
  let container ← written.mapError .unencodable
  let archive ← (Translation.archiveOfContainer version container).mapError .unconvertible
  return ⟨container, archive⟩

/-- It makes an output of a container that can be translated. -/
theorem finish_eq_ok {w : Except EncodeFault (List UInt8)} {o : Output} : finish version w = .ok o ↔
    w = .ok o.container ∧ Translation.archiveOfContainer version o.container = .ok o.archive := by
  simp only [finish, bind_eq_ok, mapError_eq_ok]
  constructor
  · rintro ⟨b, made, a, archived, same⟩
    cases same
    exact ⟨made, archived⟩
  · rintro ⟨made, archived⟩
    exact ⟨_, made, _, archived, rfl⟩

/-- The ways in which a run on a file can end. -/
inductive Ends (version : Version) (f : File) : Except Fault Output → Prop
  | unstubbable {cause : Stub.Fault} : f.stubbed = .error cause →
      Ends version f (.error (.unstubbable cause))
  | written {s : File} {w : Except EncodeFault (List UInt8)} : f.stubbed = .ok s → Encodes s w →
      Ends version f (finish version w)

/-- The ways in which a run on bytes can end that some reader makes a file of. -/
inductive Runs (reader : List UInt8 → Except DecodeFault File) (version : Version)
    (bytes : List UInt8) : Except Fault Output → Prop
  | undecodable {cause : DecodeFault} : reader bytes = .error cause →
      Runs reader version bytes (.error (.undecodable cause))
  | read {f : File} {r : Except Fault Output} : reader bytes = .ok f → Ends version f r →
      Runs reader version bytes r

/-- A run on bytes that are read ends as one on the file. -/
theorem runs_iff {reader : List UInt8 → Except DecodeFault File} {bytes : List UInt8}
    (read : reader bytes = .ok f) : Runs reader version bytes r ↔ Ends version f r := by
  constructor
  · rintro (failed | ⟨again, ends⟩)
    · cases read.symm.trans failed
    · cases read.symm.trans again
      exact ends
  · exact .read read

/-- Files with the same stubs end alike. -/
theorem ends_congr (same : f.stubbed = g.stubbed) (ends : Ends version f r) : Ends version g r := by
  cases ends with
  | unstubbable failed => exact .unstubbable (same ▸ failed)
  | written stubbed written => exact .written (same ▸ stubbed) written

/-- With the container of the encoder, a run ends in the output of the file. -/
theorem ofFile_eq_finish {s : File} (stubbed : f.stubbed = .ok s) :
    ofFile version f = finish version (encode s) := by
  rw [ofFile, stubbed]
  rfl

/-- If the handles that are written are apart, it can end in no other way. -/
theorem ends_iff_of_apart (apart : ∀ s, f.stubbed = .ok s → HandlesApart s) :
    Ends version f r ↔ r = ofFile version f := by
  constructor
  · intro ends
    cases ends with
    | unstubbable failed =>
      rw [ofFile, failed]
      rfl
    | written stubbed written =>
      rw [ofFile_eq_finish stubbed, (encodes_iff_of_apart (apart _ stubbed)).mp written]
  · rintro rfl
    cases stubbed : f.stubbed with
    | error cause =>
      rw [ofFile, stubbed]
      exact .unstubbable stubbed
    | ok s =>
      rw [ofFile_eq_finish stubbed]
      exact .written stubbed (encodes_encode s)

/-- Runs on files that are alike but for bodies can have the same faults, and make the same
containers and the same archives. Each ends in one way only if no two of the handles that
are written share a key, as none do in a file that was read from a container. -/
theorem oblivious {first second : List UInt8 → Except DecodeFault File} {a b : List UInt8}
    (readsFirst : first a = .ok f) (readsSecond : second b = .ok g) (alike : f.AlikeButBodies g)
    (version : Version) :
    (∀ r, Runs first version a r ↔ Runs second version b r)
    ∧ ((∀ s, f.stubbed = .ok s → HandlesApart s) → ∃ end₁, (∀ r, Runs first version a r ↔ r = end₁)
      ∧ ∀ r, Runs second version b r ↔ r = end₁)
    ∧ ∀ bytes, decode bytes = .ok f → ∀ s, f.stubbed = .ok s → HandlesApart s := by
  have same := File.stubbed_congr alike
  have alike (r : Except Fault Output) : Runs first version a r ↔ Runs second version b r := by
    rw [runs_iff readsFirst, runs_iff readsSecond]
    exact ⟨ends_congr same, ends_congr same.symm⟩
  refine ⟨alike, fun apart => ⟨ofFile version f, fun r => ?_, fun r => ?_⟩, fun bytes read s made => ?_⟩
  · rw [runs_iff readsFirst, ends_iff_of_apart apart]
  · rw [← alike, runs_iff readsFirst, ends_iff_of_apart apart]
  · exact handlesApart_of_sound ((sound_of_decode read).stubbed made)

end Output

/-! ## Bodies that leave no trace -/

section Samples

open StubJar.Bytes StubJar.Digest StubJar.Container StubJar.Translation
open StubJar.ClassFile.ConstantPool

/-- A method with a body that no container can hold, and with an annotation that would raise
the version of the format. -/
def annotatedMethod : Method :=
  { methodWith strayBody with
    annotations := [⟨.runtime, ⟨"LB;"⟩, [("value", .methodType ⟨Descriptor.void, []⟩)]⟩] }

/-- A class with an annotation that holds a handle, and with the method. -/
def classAround (m : Method) : ClassDecl :=
  markedClass [("a", .methodHandle fieldHandle)] [m]

/-- The class alone. -/
def fileAround (m : Method) : File := ⟨35, [classAround m]⟩

/-- With another body and without the annotation, the file is alike. -/
theorem fileAround_alike :
    (fileAround annotatedMethod).AlikeButBodies (fileAround (methodWith ⟨1, 1, 0, 0, []⟩)) := by
  refine ⟨rfl, .cons ⟨rfl, .cons ⟨rfl, rfl, ?_⟩ .nil⟩ .nil⟩
  intro bodiless
  exact absurd bodiless (by decide)

/-- The stub has neither the body nor the annotation. -/
theorem stubbed_annotatedMethod :
    (fileAround annotatedMethod).stubbed = .ok (fileAround (methodWith zeroBody)) := rfl

/-- Of a class with nothing but methods and an annotation that is for the virtual machine, the
methods are translated. -/
theorem partsOf_markedClass (elements : List (String × Value)) (methods : List Method) :
    partsOf "A" (markedClass elements methods) = (do
      let this ← (PoolM.classRef "A" : Translator Nat)
      let methods ← methods.mapM methodForm
      return ⟨33, this, none, [], [], methods, []⟩) := by
  have source : (sourceAttributes (markedClass elements methods) : Translator (List Attribute)) = pure [] :=
    rfl
  have common : (commonAttributes (markedClass elements methods).annotations
      : Translator (List Attribute)) = pure [] := rfl
  have flags : flagsOfClass ⟨1⟩ = 33 := by decide
  rw [partsOf, source, common]
  simp only [markedClass, flags, Option.mapM_none, List.mapM_nil, pure_bind, List.append_nil]

/-- Around the stub, the class is translated. -/
theorem partsOf_classAround : ∃ parts pool, partsOf "A" (classAround (methodWith zeroBody))
    ConstantPool.empty = (.ok parts, pool) := by
  rw [classAround, partsOf_markedClass, empty_eq_ofConstants]
  simp (disch := decide) only [methodForm_zeroBody, Attribute.of, Content.name, PoolM.classRef,
    PoolM.utf8, PoolM.bind_run, lift_run, PoolM.pure_run, PoolM.slot_ofConstants, slotsOf,
    Constant.width, List.map_nil, List.map_cons, List.sum_nil, List.sum_cons, List.nil_append,
    List.cons_append, Except.mapError, List.mapM_nil, List.mapM_cons]
  exact ⟨_, _, rfl⟩

/-- A container that is read as one class is translated with it. -/
theorem exists_archive_of_class {version : Version} {b : List UInt8} {n : Nat} {c : ClassDecl}
    {parts : Parts} {pool : ConstantPool} {name : String} (read : decode b = .ok ⟨n, [c]⟩)
    (named : c.type.className? = some name)
    (made : partsOf name c ConstantPool.empty = (.ok parts, pool)) :
    ∃ a, archiveOfContainer version b = .ok a := by
  have entry : classEntry version c = .ok ⟨name, _⟩ := classEntry_eq_ok.mpr ⟨named, parts, pool, made, rfl⟩
  have archived : archiveOfContainer version b = archiveOf version [c] := by
    rw [archiveOfContainer, read]
  exact ⟨_, archived.trans (archiveOf_singleton entry)⟩

/-- The run on the file makes an output. -/
theorem ofFile_fileAround : ∃ o, Output.ofFile .default (fileAround annotatedMethod) = .ok o := by
  have modest : Modest (fileAround (methodWith zeroBody)) := by
    constructor
    all_goals decide
  have regular : (fileAround (methodWith zeroBody)).Regular := by decide
  have first : Hierarchy.ParentsFirst (fileAround (methodWith zeroBody)).classes :=
    Hierarchy.parentsFirst_of_getElem (by decide)
  have room : roomOf (fileAround (methodWith zeroBody)) < 2 ^ 32 := by decide +kernel
  obtain ⟨b, written, _, small⟩ :=
    modest.exists_small regular.known room (Hierarchy.order_of_parentsFirst first)
  have read := decode_encode_normal written small regular.known regular.flags regular.kinds
    regular.methods regular.fields
  have normal : (fileAround (methodWith zeroBody)).normal = ⟨38, [classAround (methodWith zeroBody)]⟩ := by
    cbv
  obtain ⟨parts, pool, made⟩ := partsOf_classAround
  obtain ⟨a, archived⟩ : ∃ a, archiveOfContainer .default b = .ok a :=
    exists_archive_of_class (normal ▸ read) rfl made
  rw [Output.ofFile_eq_finish stubbed_annotatedMethod, written]
  exact ⟨⟨b, a⟩, Output.finish_eq_ok.mpr ⟨rfl, archived⟩⟩

/-- Both runs make the same output, and nothing else. -/
theorem Output.oblivious_annotatedMethod : ∃ o : Output,
    (∀ r, Output.Runs (fun _ => .ok (fileAround annotatedMethod)) .default [] r ↔ r = .ok o)
      ∧ ∀ r, Output.Runs (fun _ => .ok (fileAround (methodWith ⟨1, 1, 0, 0, []⟩))) .default [] r
        ↔ r = .ok o := by
  have apart : ∀ s, (fileAround annotatedMethod).stubbed = .ok s → HandlesApart s := by
    intro s made
    obtain rfl := Except.ok.inj (stubbed_annotatedMethod.symm.trans made)
    exact handlesApart_of_agree (by decide)
  obtain ⟨_, alone, _⟩ := @Output.oblivious _ _ (fun _ => .ok _) (fun _ => .ok _) [] [] rfl rfl
    fileAround_alike .default
  obtain ⟨r, ends, ends'⟩ := alone apart
  obtain ⟨o, made⟩ := ofFile_fileAround
  have run : Output.Runs (fun _ => .ok (fileAround annotatedMethod)) .default [] (.ok o) :=
    (Output.runs_iff rfl).mpr ((Output.ends_iff_of_apart apart).mpr made.symm)
  obtain rfl := (ends (.ok o)).mp run
  exact ⟨o, ends, ends'⟩

/-! ## Two handles that share a key -/

/-- What is read of the clashing class: the second handle has become the first. -/
def mergedClass : ClassDecl :=
  markedClass [("a", .methodHandle fieldHandle), ("b", .methodHandle fieldHandle)] []

/-- The first eight bytes of the container are its version; the next ones seal it. -/
theorem exists_stamp (rest : List UInt8) : ∃ sealed : Nat → UInt8, stamp 38 rest
    = [0x64, 0x65, 0x78, 0x0A, 0x30, 0x33, 0x38, 0] ++ (List.range 24).map sealed ++ rest := by
  have spread : ∀ xs : List UInt8, xs.length = 24 → (List.range 24).map (xs.getD · 0) = xs := by
    intro xs long
    refine List.ext_getElem (by simp [long]) fun i _ inside => ?_
    simp [inside]
  have length : (le 4 (adler32 (Sha1.digest rest ++ rest)) ++ Sha1.digest rest).length = 24 := by
    rw [List.length_append, length_digest, length_le]
  refine ⟨fun i => (le 4 (adler32 (Sha1.digest rest ++ rest)) ++ Sha1.digest rest).getD i 0, ?_⟩
  rw [spread _ length, stamp, List.append_assoc _ (le 4 _)]
  rfl

set_option maxRecDepth 20000 in
/-- Behind its header, the container is read whatever its checksum and its signature are, and
whichever of the handles comes first. -/
theorem read_clashingRest (sealed : Nat → UInt8) {i j : UInt8} (swapped : (i, j) ∈ [(0, 1), (1, 0)]) :
    let bytes := [0x64, 0x65, 0x78, 0x0A, 0x30, 0x33, 0x38, 0] ++ (List.range 24).map sealed
      ++ clashingRest i j
    (readTables bytes (Image.ofBytes bytes) >>= fun t => Opened.file ⟨38, bytes, Image.ofBytes bytes, t⟩)
      = .ok ⟨38, [mergedClass]⟩ := by
  simp only [ofBytes_eq]
  simp only [List.mem_cons, List.not_mem_nil, or_false, Prod.mk.injEq] at swapped
  obtain ⟨rfl, rfl⟩ | ⟨rfl, rfl⟩ := swapped
  · cbv
  · cbv

/-- So each of the containers is read as the class. -/
theorem decode_clashing {f : File} {i j : UInt8} (swapped : (i, j) ∈ [(0, 1), (1, 0)])
    (known : 35 ≤ f.version ∧ f.version ≤ 39) (written : writtenVersion (poolOf f) f = 38)
    (writes : Writes f [0] (stamp 38 (clashingRest i j))) :
    decode (stamp 38 (clashingRest i j)) = .ok ⟨38, [mergedClass]⟩ := by
  have length : (clashingRest i j).length = 432 := by
    simp [clashingRest, length_le]
  have short : (stamp 38 (clashingRest i j)).length = 432 + 32 :=
    (length_stamp (by decide) _).trans (congrArg (· + 32) length)
  have header := writes.checkHeader_eq known (by omega)
  obtain ⟨sealed, spelled⟩ := exists_stamp (clashingRest i j)
  have read := read_clashingRest sealed swapped
  rw [← spelled] at read
  rw [written] at header
  generalize stamp 38 (clashingRest i j) = bytes at header read
  obtain ⟨tables, found, read⟩ := bind_eq_ok.mp read
  exact bind_eq_ok.mpr ⟨_, bind_eq_ok.mpr ⟨_, header, bind_eq_ok.mpr ⟨_, found, rfl⟩⟩, read⟩

/-- The class is translated. -/
theorem partsOf_mergedClass : ∃ parts pool, partsOf "A" mergedClass ConstantPool.empty
    = (.ok parts, pool) := by
  rw [mergedClass, partsOf_markedClass, empty_eq_ofConstants]
  simp (disch := decide) only [PoolM.classRef, PoolM.utf8, PoolM.bind_run, lift_run, PoolM.pure_run,
    PoolM.slot_ofConstants, slotsOf, Constant.width, List.map_nil, List.map_cons, List.sum_nil,
    List.sum_cons, List.nil_append, List.cons_append, Except.mapError, List.mapM_nil]
  exact ⟨_, _, rfl⟩

/-- The run ends with each container that the file can be written to. -/
theorem runs_clashingFile {b : List UInt8} (written : Encodes clashingFile (.ok b))
    (read : decode b = .ok ⟨38, [mergedClass]⟩) :
    ∃ a, Output.Runs (fun _ => .ok clashingFile) .default [] (.ok ⟨b, a⟩) := by
  obtain ⟨parts, pool, made⟩ := partsOf_mergedClass
  obtain ⟨a, archived⟩ : ∃ a, archiveOfContainer .default b = .ok a :=
    exists_archive_of_class read rfl made
  have stubbed : clashingFile.stubbed = .ok clashingFile := rfl
  refine ⟨a, (Output.runs_iff rfl).mpr ?_⟩
  rw [← Output.finish_eq_ok (o := ⟨b, a⟩).mpr ⟨rfl, archived⟩]
  exact .written stubbed written

/-- With two handles that share a key, two runs on the same file can make different
containers. -/
theorem Output.oblivious_clashes : clashingFile.AlikeButBodies clashingFile
    ∧ ∃ o o' : Output, o.container ≠ o'.container
      ∧ Output.Runs (fun _ => .ok clashingFile) .default [] (.ok o)
      ∧ Output.Runs (fun _ => .ok clashingFile) .default [] (.ok o') := by
  have alike : clashingFile.AlikeButBodies clashingFile := ⟨rfl, .cons ⟨rfl, .nil⟩ .nil⟩
  have read := decode_clashing (by decide) (by decide) rfl writes_clashingFile.2
  have read' := decode_clashing (by decide) (by decide) rfl writes_reclashingFile.2
  obtain ⟨a, run⟩ := runs_clashingFile encodes_clashingFile.1 read
  obtain ⟨a', run'⟩ := runs_clashingFile encodes_clashingFile.2 read'
  exact ⟨alike, ⟨_, a⟩, ⟨_, a'⟩, clashingRest_apart, run, run'⟩

end Samples

end StubJar
