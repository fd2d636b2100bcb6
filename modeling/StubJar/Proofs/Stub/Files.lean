import StubJar.Proofs.Container.Decoded
import StubJar.Proofs.Stub.Bodies

/-!
# Files of stubs

Stubs change nothing but bodies and annotations of methods, so a file that was read
is as sound with stubs as it was without (`Sound.stubbed`).

A file is refused for a body only where an abstract or native method has one
(`encode_stubbed`): every other method has a stub, which any container can hold.
-/

namespace StubJar.Container

open StubJar.Dalvik StubJar.Stub

/-! ## What stubs leave alone -/

section Stubbed

variable {f s : File} {c d : ClassDecl} {m n : Method}

/-- A stub keeps the reference of the method. -/
theorem stubbed_ref (h : m.stubbed = .ok n) : n.ref = m.ref := by
  rcases Method.stubbed_eq_ok.mp h with ⟨_, rfl⟩ | ⟨_, _, _, rfl⟩
  · rfl
  · rfl

/-- It keeps the flags. -/
theorem stubbed_flags (h : m.stubbed = .ok n) : n.flags = m.flags := by
  rcases Method.stubbed_eq_ok.mp h with ⟨_, rfl⟩ | ⟨_, _, _, rfl⟩
  · rfl
  · rfl

/-- A method with a stub has fewer annotations, if any. -/
theorem stubbed_annotations (h : m.stubbed = .ok n) :
    n.annotations ++ n.parameterAnnotations.flatten
      ⊆ m.annotations ++ m.parameterAnnotations.flatten := by
  rcases Method.stubbed_eq_ok.mp h with ⟨_, rfl⟩ | ⟨_, _, _, rfl⟩
  · exact List.Subset.refl _
  · exact List.nil_subset _

/-- Stubs of methods have the same references, in the same order. -/
theorem stubbed_refs {ms ns : List Method} (h : List.Forall₂ (fun m n => m.stubbed = .ok n) ms ns) :
    ns.map Method.ref = ms.map Method.ref := by
  induction h with
  | nil => rfl
  | cons head _ ih => rw [List.map_cons, List.map_cons, stubbed_ref head, ih]

/-- Stubs of a class that can be read can be read. -/
theorem SoundClass.stubbed (h : SoundClass c) (made : c.stubbed = .ok d) : SoundClass d := by
  obtain ⟨methods, each, rfl⟩ := ClassDecl.stubbed_eq_ok.mp made
  refine ⟨⟨h.flags.own, h.flags.fields, fun n hn => ?_⟩, ?_⟩
  · obtain ⟨m, hm, made⟩ := exists_of_mem_right each hn
    rw [stubbed_flags made]
    exact h.flags.methods m hm
  · obtain ⟨own, old⟩ := HandlesAgree.append.mp h.handles
    refine HandlesAgree.append.mpr ⟨own, HandlesAgree.flatMap.mpr fun n hn => ?_⟩
    obtain ⟨m, hm, made⟩ := exists_of_mem_right each hn
    exact HandlesAgree.flatMap.mpr fun a ha =>
      HandlesAgree.flatMap.mp (HandlesAgree.flatMap.mp old m hm) a (stubbed_annotations made ha)

theorem Sound.stubbed (h : Sound f) (made : f.stubbed = .ok s) : Sound s := by
  obtain ⟨classes, each, rfl⟩ := File.stubbed_eq_ok.mp made
  refine ⟨h.known, fun d hd => ?_⟩
  obtain ⟨c, hc, made⟩ := exists_of_mem_right each hd
  exact (h.classes c hc).stubbed made

/-- A file has as many stubs as classes. -/
theorem length_stubbed (made : f.stubbed = .ok s) : s.classes.length = f.classes.length := by
  obtain ⟨classes, each, rfl⟩ := File.stubbed_eq_ok.mp made
  exact each.length_eq.symm

/-- All stubs of a file have the references of its methods. -/
theorem stubbed_allRefs {cs ds : List ClassDecl}
    (h : List.Forall₂ (fun c d => c.stubbed = .ok d) cs ds) :
    (ds.flatMap ClassDecl.methods).map Method.ref = (cs.flatMap ClassDecl.methods).map Method.ref := by
  induction h with
  | nil => rfl
  | cons head _ ih =>
    obtain ⟨methods, each, rfl⟩ := ClassDecl.stubbed_eq_ok.mp head
    rw [List.flatMap_cons, List.flatMap_cons, List.map_append, List.map_append, ih, stubbed_refs each]

/-- If no method is listed twice, no stub is. -/
theorem methodsDistinct_stubbed (distinct : f.MethodsDistinct) (made : f.stubbed = .ok s) :
    s.MethodsDistinct := by
  obtain ⟨classes, each, rfl⟩ := File.stubbed_eq_ok.mp made
  rw [File.MethodsDistinct, stubbed_allRefs each]
  exact distinct

/-! ## Bodies that are refused -/

/-- The fault lies in the body of a method. -/
inductive EncodeFault.OfBody : EncodeFault → Prop
  | unsupportedBody (method : String) (reason : InstructionFault) :
    OfBody (.unsupportedBody method reason)
  | tryBlocks (method : String) : OfBody (.tryBlocks method)

/-- The body of a stub passes the check of the writer. -/
theorem checkBody_stub {m : Method} {body : Body} (h : stubBody m = .ok body) (n : Method) :
    checkBody n body = .ok () := by
  obtain ⟨shape, _, _, rfl⟩ := stubBody_eq_ok.mp h
  rw [checkBody, Body.instructions, Shape.decodeAll_units]
  rfl

/-- A table that is too large is no fault of a body. -/
theorem checkSize_error {table : TableName} {limit count : Nat} {fault : EncodeFault}
    (h : Pool.checkSize table limit count = .error fault) : ¬ fault.OfBody := by
  rw [Pool.checkSize] at h
  split at h
  · cases h
    intro body
    cases body
  · cases h

/-- Neither is any of the tables. -/
theorem checkSizes_error {p : Pool} {fault : EncodeFault} (h : p.checkSizes = .error fault) :
    ¬ fault.OfBody := by
  rw [Pool.checkSizes, bind_eq_error] at h
  rcases h with types | ⟨_, _, h⟩
  · exact checkSize_error types
  rw [bind_eq_error] at h
  rcases h with prototypes | ⟨_, _, h⟩
  · exact checkSize_error prototypes
  split at h
  · rw [bind_eq_error] at h
    rcases h with fields | ⟨_, _, methods⟩
    · exact checkSize_error fields
    · exact checkSize_error methods
  · cases h

/-- Neither is a prototype without letters. -/
theorem ofFile_error {fault : EncodeFault} (h : Pool.ofFile f = .error fault) : ¬ fault.OfBody := by
  rw [Pool.ofFile] at h
  split at h
  · cases h
    intro body
    cases body
  · rw [bind_eq_error] at h
    rcases h with sizes | ⟨_, _, h⟩
    · exact checkSizes_error sizes
    · cases h

/-- Only the check of bodies fails for a body. -/
theorem encode_error {fault : EncodeFault} (h : encode f = .error fault) (body : fault.OfBody) :
    checkBodies (bodies (placedOf f)) = .error fault := by
  rw [encode, bind_eq_error] at h
  rcases h with tables | ⟨p, tables, h⟩
  · exact absurd body (ofFile_error tables)
  obtain ⟨rfl, _⟩ := ofFile_eq_ok.mp tables
  rw [bind_eq_error] at h
  rcases h with hierarchy | ⟨_, _, h⟩
  · rw [Hierarchy.order] at hierarchy
    split at hierarchy
    · cases hierarchy
    · cases hierarchy
      cases body
  dsimp only at h
  rw [bind_eq_error] at h
  rcases h with refused | ⟨_, _, h⟩
  · exact refused
  · cases h

/-- With stubs, a file is refused for a body only where a method has one that is to
have none. -/
theorem encode_stubbed {fault : EncodeFault} (made : f.stubbed = .ok s)
    (h : encode s = .error fault) (body : fault.OfBody) :
    ∃ c ∈ f.classes, ∃ m ∈ c.methods, m.flags.isBodiless = true ∧ m.body.isSome = true := by
  obtain ⟨⟨i, n, b⟩, listed, refused⟩ := forM_eq_error (encode_error h body)
  obtain ⟨d, hd, hn, has⟩ := mem_bodies_placedOf.mp ⟨i, listed⟩
  obtain ⟨classes, each, rfl⟩ := File.stubbed_eq_ok.mp made
  obtain ⟨c, hc, made_class⟩ := exists_of_mem_right each hd
  obtain ⟨methods, each_method, same⟩ := ClassDecl.stubbed_eq_ok.mp made_class
  rw [same] at hn
  obtain ⟨m, hm, made_method⟩ := exists_of_mem_right each_method hn
  refine ⟨c, hc, m, hm, ?_⟩
  rcases Method.stubbed_eq_ok.mp made_method with ⟨bodiless, rfl⟩ | ⟨_, stub, made_body, rfl⟩
  · exact ⟨bodiless, by rw [has]; rfl⟩
  · cases has
    exact absurd ((checkBody_stub made_body _).symm.trans refused) nofun

end Stubbed

end StubJar.Container
