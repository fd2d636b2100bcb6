import StubJar.Proofs.Stub.Files
import StubJar.Proofs.Translation.Parts
import StubJar.Translation.Archive

/-!
# What makes a translation fail

Once every method has a stub, or is to have no body, nothing that is said about
bodies can go wrong any more, neither when the file is written nor when what was
written is translated (`bodies_never_fail`).
-/

namespace StubJar.Translation

open StubJar.Dalvik StubJar.ClassFile StubJar.Stub

/-! ## Stubs that were read back -/

/-- A stub can be translated. -/
theorem translatable_of_stubbed {m n : Method} (made : m.stubbed = .ok n) :
    Translatable n.normal := by
  rcases Method.stubbed_eq_ok.mp made with ⟨bodiless, rfl⟩ | ⟨embodied, body, stub, rfl⟩
  · exact .inl bodiless
  · obtain ⟨shape, shaped, few, rfl⟩ := stubBody_eq_ok.mp stub
    obtain ⟨letter, known, shaped⟩ := Option.bind_eq_some_iff.mp shaped
    exact .inr ⟨embodied, letter, known, few, shape, _, shaped, rfl, rfl⟩

/-- The normal forms of methods are those of the methods of the class. -/
theorem mem_normalMethods {ms : List Method} {m : Method} (mem : m ∈ normalMethods ms) :
    ∃ n ∈ ms, n.normal = m := by
  rw [normalMethods, List.mem_append, mem_inMethodOrder, mem_inMethodOrder] at mem
  rcases mem with mem | mem
  all_goals
    obtain ⟨n, hn, same⟩ := List.mem_map.mp mem
    exact ⟨n, (List.mem_filter.mp hn).1, same⟩

/-- The methods of a file that was written with stubs and read back. -/
theorem translatable_of_decode {f s g : File} {order : List Nat} {d : List UInt8}
    (made : f.stubbed = .ok s) (legible : Container.Legible s order d)
    (read : Container.decode d = .ok g) : ∀ c ∈ g.classes, ∀ m ∈ c.methods, Translatable m := by
  rw [legible.decode_eq] at read
  cases read
  intro c hc m hm
  obtain ⟨i, _, found⟩ := List.mem_filterMap.mp hc
  obtain ⟨c', stands, rfl⟩ := Option.map_eq_some_iff.mp found
  obtain ⟨n, hn, rfl⟩ := mem_normalMethods hm
  obtain ⟨classes, each, rfl⟩ := File.stubbed_eq_ok.mp made
  obtain ⟨_, _, made_class⟩ := exists_of_mem_right each (List.mem_of_getElem? stands)
  obtain ⟨methods, each_method, rfl⟩ := ClassDecl.stubbed_eq_ok.mp made_class
  obtain ⟨_, _, made_method⟩ := exists_of_mem_right each_method hn
  exact translatable_of_stubbed made_method

/-! ## Sums of two bytes -/

/-- The numbers that are added up in translating a method fit into two bytes:
the registers of the arguments, the registers behind those of the instructions, and
the depth of the stack. -/
structure SumsFit (m : Method) : Prop where
  arguments : m.ins < 2 ^ 16
  registers : ∀ body is, m.body = some body → body.instructions = .ok is →
    ∀ i ∈ is, ∀ r, i.register? = some r → r + 1 < 2 ^ 16
  depth : ∀ code p q, codeOf m p = (.ok code, q) → code.maxStack < 2 ^ 16

/-- A stub uses the first register only. -/
theorem register_of_stub (shape : Shape) :
    ∀ i ∈ shape.instructions, ∀ r ∈ i.register?, r = 0 := by
  cases shape <;> decide

/-- The sums of its sizes fit. -/
theorem sumsFit_of_stubbed {m : Method} {letter : Char} (h : Stubbed m letter) : SumsFit m := by
  refine ⟨Nat.lt_of_le_of_lt h.few (by decide), fun body is has spelled i mem r touched => ?_,
    fun code p q made => ?_⟩
  · obtain ⟨shape, _, _, has', units⟩ := h.body
    obtain rfl := Option.some.inj (has'.symm.trans has)
    rw [Body.instructions, units, Shape.decodeAll_units] at spelled
    cases spelled
    rw [register_of_stub shape i mem r touched]
    decide
  · rw [codeOf_stub h] at made
    cases made
    exact Nat.lt_of_le_of_lt (stubDepth_le letter) (by decide)

/-! ## Faults -/

/-- A class of stubs is not refused for a body. -/
theorem classEntry_error {version : Version} {c : ClassDecl} (h : ∀ m ∈ c.methods, Translatable m)
    {fault : Fault} (failed : classEntry version c = .error fault) : fault.SparesBodies := by
  rw [classEntry] at failed
  split at failed
  · cases failed
    exact .notAClass _
  · rename_i name _
    have parts := partsOf_meets version name h ConstantPool.empty ConstantPool.wellFormed_empty trivial
    split at failed
    · cases failed
    · rename_i result
      rw [result] at parts
      cases failed
      exact parts

/-- So it is when the class is added to an archive. -/
theorem addClass_error {version : Version} {a : Jar.Archive} {c : ClassDecl}
    (h : ∀ m ∈ c.methods, Translatable m) {fault : Fault}
    (failed : addClass version a c = .error fault) : fault.SparesBodies := by
  rw [addClass, bind_eq_error] at failed
  rcases failed with failed | ⟨entry, _, failed⟩
  · exact classEntry_error h failed
  · split at failed
    · cases failed
    · cases failed
      exact .duplicateClass _

theorem archiveOf_error {version : Version} {classes : List ClassDecl}
    (h : ∀ c ∈ classes, ∀ m ∈ c.methods, Translatable m) {fault : Fault}
    (failed : archiveOf version classes = .error fault) : fault.SparesBodies := by
  rw [archiveOf] at failed
  generalize Jar.Archive.empty = a at failed
  induction classes generalizing a with
  | nil => cases failed
  | cons c classes ih =>
    rw [List.foldlM_cons, bind_eq_error] at failed
    rcases failed with failed | ⟨b, _, failed⟩
    · exact addClass_error (h c List.mem_cons_self) failed
    · exact ih (fun d hd => h d (List.mem_cons_of_mem _ hd)) b failed

/-- A file that was read and got stubs is refused for a body only where a method
that is to have none has one. What it is written to is translated, unless a name
is none of a class, two classes have one name, or a pool is full; and the sums that
are taken on the way fit into two bytes. -/
theorem bodies_never_fail {b : List UInt8} {f s : File} (read : Container.decode b = .ok f)
    (distinct : f.MethodsDistinct) (made : f.stubbed = .ok s) :
    (∀ fault, Container.encode s = .error fault → fault.OfBody →
      ∃ c ∈ f.classes, ∃ m ∈ c.methods, m.flags.isBodiless = true ∧ m.body.isSome = true)
    ∧ ∀ d, Container.encode s = .ok d → d.length < 2 ^ 32 →
      (∀ version fault, archiveOfContainer version d = .error fault → fault.SparesBodies)
      ∧ ∀ g, Container.decode d = .ok g →
        ∀ c ∈ g.classes, ∀ m ∈ c.methods, m.flags.isBodiless = false → SumsFit m := by
  refine ⟨fun fault failed body => Container.encode_stubbed made failed body,
    fun d written small => ?_⟩
  obtain ⟨order, _, writes⟩ := Container.encode_eq_ok.mp written
  have legible := ((Container.sound_of_decode read).stubbed made).legible
    (Container.methodsDistinct_stubbed distinct made) writes small
  have back := legible.decode_eq
  have translatable := translatable_of_decode made legible back
  refine ⟨fun version fault failed => ?_, fun g reads c hc m hm embodied => ?_⟩
  · rw [archiveOfContainer, back] at failed
    exact archiveOf_error translatable failed
  · rcases translatable_of_decode made legible reads c hc m hm with bodiless | ⟨_, letter, stubbed⟩
    · rw [embodied] at bodiless
      cases bodiless
    · exact sumsFit_of_stubbed stubbed

/-! ## A body that cannot be written -/

/-- A method without arguments that returns a number. -/
def methodWith (body : Body) : Method := ⟨⟨⟨"LA;"⟩, "m", ⟨⟨"I"⟩, []⟩⟩, ⟨1⟩, [], [], some body⟩

/-- A class with this method alone. -/
def classWith (body : Body) : ClassDecl := ⟨⟨"LA;"⟩, ⟨1⟩, none, [], none, [], [], [methodWith body]⟩

/-- A file with this class alone. -/
def fileWith (body : Body) : File := ⟨35, [classWith body]⟩

/-- A body with a try block and with a unit that is no instruction. -/
def strayBody : Body := ⟨3, 1, 0, 1, [0x73]⟩

/-- A stub in its place, which returns zero. -/
def zeroBody : Body := ⟨2, 1, 0, 0, [0x12, 0x0F]⟩

/-- A container with the class: its header, the rows of three strings, of two types, of the
prototype, of the method and of the class, the code, the members, and the strings. -/
def strayContainer : List UInt8 :=
  [0x64, 0x65, 0x78, 0x0A, 0x30, 0x33, 0x35, 0]
    ++ [0x8CB413DF, 0, 0, 0, 0, 0, 0xDD, 0x70, 0x12345678, 0, 0, 0, 3, 0x70, 2, 0x7C, 1, 0x84, 0, 0,
        1, 0x90, 1, 0x98, 0x25, 0xB8, 0xD2, 0xD5, 0xDA, 0, 1, 0, 0, 0, 1, 2, 1, 1, 0xFFFFFFFF, 0,
        0xFFFFFFFF, 0, 0xCA, 0, 0x00010003, 0x00010000, 0, 1].flatMap (Bytes.le 4)
    ++ [0x73, 0, 0, 0, 0, 1, 0, 1, 0xB8, 1, 1, 0x49, 0, 3, 0x4C, 0x41, 0x3B, 0, 1, 0x6D, 0]

set_option maxRecDepth 20000 in
/-- The container is read as the file. -/
theorem decode_strayContainer : Container.decode strayContainer = .ok (fileWith strayBody) := by
  with_unfolding_all rfl

/-- Its stub returns a zero. -/
theorem stubbed_strayBody : (fileWith strayBody).stubbed = .ok (fileWith zeroBody) := rfl

theorem regular_fileWith (body : Body) : (fileWith body).Regular where
  known := (by decide : 35 ≤ 35 ∧ 35 ≤ 39)
  flags c hc := by
    obtain rfl := List.mem_singleton.mp hc
    refine ⟨(by decide : (⟨1⟩ : ClassFlags).isKnown = true), fun _ mem => (nomatch mem), fun m hm => ?_⟩
    obtain rfl := List.mem_singleton.mp hm
    exact (by decide : (⟨1⟩ : MethodFlags).isKnown = true)
  kinds _ mem := nomatch mem
  methods := List.nodup_singleton _
  fields c hc := by
    obtain rfl := List.mem_singleton.mp hc
    exact List.nodup_nil

theorem modest_zeroBody : Container.Modest (fileWith zeroBody) := by
  constructor
  all_goals decide

/-- With the stub, the file is written and read back as it is. -/
theorem encode_zeroBody : ∃ d, Container.encode (fileWith zeroBody) = .ok d ∧ d.length < 2 ^ 32
    ∧ Container.decode d = .ok (fileWith zeroBody) := by
  have regular := regular_fileWith zeroBody
  have ordered : Container.Hierarchy.order (fileWith zeroBody).classes = .ok [0] := by
    rw [Container.Hierarchy.order_eq, Container.Hierarchy.parentsOf_eq]
    decide
  have room : Container.roomOf (fileWith zeroBody) < 2 ^ 32 := by decide +kernel
  obtain ⟨d, written, _, small⟩ := modest_zeroBody.exists_small regular.known room ordered
  have normal : (fileWith zeroBody).normal = fileWith zeroBody := by cbv
  have read := Container.decode_encode_normal written small regular.known regular.flags regular.kinds
    regular.methods regular.fields
  rw [normal] at read
  exact ⟨d, written, small, read⟩

/-- The run makes a container, which is not refused for a body. -/
theorem bodies_never_fail_strayBody : ∃ d, Container.decode strayContainer = .ok (fileWith strayBody)
    ∧ (fileWith strayBody).stubbed = .ok (fileWith zeroBody)
    ∧ Container.encode (fileWith zeroBody) = .ok d
    ∧ (∀ version fault, archiveOfContainer version d = .error fault → fault.SparesBodies)
    ∧ ∀ g, Container.decode d = .ok g →
      ∀ c ∈ g.classes, ∀ m ∈ c.methods, m.flags.isBodiless = false → SumsFit m := by
  obtain ⟨d, written, small, _⟩ := encode_zeroBody
  have never := (bodies_never_fail decode_strayContainer (regular_fileWith strayBody).methods
    stubbed_strayBody).2 d written small
  exact ⟨d, decode_strayContainer, stubbed_strayBody, written, never⟩

/-- Without the stub, it is not. -/
example : Container.encode (fileWith strayBody) = .error (.tryBlocks "LA;->m()I") := by cbv

end StubJar.Translation
