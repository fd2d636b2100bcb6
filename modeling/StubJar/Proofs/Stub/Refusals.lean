import StubJar.Proofs.Stub.Bodies

/-!
# Which files get stubs

A file gets its stubs just if each of its methods can have one or needs none; otherwise
the fault is that of the first method that can have none, in the order of the classes
and of the methods in them (`File.stubbed_determined`). Stubs leave everything else of a
file alone, and a file of stubs is the file with its stubs.

A traversal fails like its first step that fails (`fault?_mapM`), so the fault of a file
is found in the list of all methods, without regard to the classes (`File.fault?_stubbed`).
-/

namespace StubJar.Stub

/-- The sums that number the registers of a plan take no more than 16 bits, those for the
registers of the frame included. -/
structure Plan.Fits (p : Plan) : Prop where
  size : p.size < 2 ^ 16
  frame : ∀ r ≤ p.size, p.frameRegister r < 2 ^ 16

/-- Registers of the plan stay in the frame. -/
theorem Plan.frameRegister_le (p : Plan) {r : Nat} (inside : r ≤ p.size) :
    p.frameRegister r ≤ p.size := by
  rw [Plan.frameRegister]
  split
  · rename_i argument
    exact Nat.add_le_add_right (Nat.le_of_lt argument) p.result
  · exact Nat.le_trans (Nat.sub_le r p.ins) inside

/-- With few arguments, all registers of a stub fit. -/
theorem Plan.fits_ofShape (shape : Shape) {isStatic : Bool} {parameters : Nat}
    (few : (if isStatic then 0 else 1) + parameters ≤ maxArgumentWidth) :
    (Plan.ofShape shape isStatic parameters).Fits := by
  have narrow : shape.width ≤ 2 := by
    cases shape <;> decide
  have size : (Plan.ofShape shape isStatic parameters).size < 2 ^ 16 := by
    rw [maxArgumentWidth] at few
    simp only [Plan.ofShape, Plan.size, Plan.ins]
    omega
  refine ⟨size, fun r inside => ?_⟩
  exact Nat.lt_of_le_of_lt (Plan.frameRegister_le _ inside) size

end StubJar.Stub

namespace StubJar.Dalvik

open StubJar.Stub

/-! ## Methods -/

/-- The method needs no stub, or there is one: its result has a shape, and its arguments,
the receiver included, take no more registers than a call can pass. -/
def Method.Stubbable (m : Method) : Prop :=
  m.flags.isBodiless = true
    ∨ (∃ shape, Shape.ofReturnType? m.ref.prototype.result = some shape) ∧ m.ins ≤ maxArgumentWidth

/-- Why a method that needs a stub can have none; the result is looked at first. -/
inductive Method.Refused (m : Method) : Fault → Prop
  | unsupportedReturnType (embodied : m.flags.isBodiless = false)
      (shapeless : Shape.ofReturnType? m.ref.prototype.result = none) :
      Refused m (.unsupportedReturnType m.ref.owner.text m.ref.name m.ref.prototype.result.text)
  | tooManyParameters {shape : Shape} (embodied : m.flags.isBodiless = false)
      (shaped : Shape.ofReturnType? m.ref.prototype.result = some shape)
      (many : maxArgumentWidth < m.ins) :
      Refused m (.tooManyParameters m.ref.render m.ref.prototype.parameterWidth)

/-- What a stub may change: nothing where the method needs none, and otherwise all but
the reference and the flags. -/
structure Method.StubOf (m n : Method) : Prop where
  kept : m.flags.isBodiless = true → n = m
  ref : n.ref = m.ref
  flags : n.flags = m.flags
  bare : m.flags.isBodiless = false →
    n.annotations = [] ∧ n.parameterAnnotations = [] ∧ n.body.isSome = true

section Methods

variable {m n : Method} {fault : Fault}

/-- A method gets a stub exactly if it can have one. -/
theorem Method.exists_stubbed : (∃ n, m.stubbed = .ok n) ↔ m.Stubbable := by
  simp only [Method.stubbed_eq_ok, stubBody_eq_ok, Method.Stubbable]
  constructor
  · rintro ⟨n, ⟨bodiless, _⟩ | ⟨_, _, ⟨shape, shaped, few, _⟩, _⟩⟩
    · exact .inl bodiless
    · exact .inr ⟨⟨shape, shaped⟩, few⟩
  · intro able
    cases embodied : m.flags.isBodiless with
    | true => exact ⟨m, .inl ⟨rfl, rfl⟩⟩
    | false =>
      rcases able with bodiless | ⟨⟨shape, shaped⟩, few⟩
      · rw [embodied] at bodiless
        cases bodiless
      · exact ⟨_, .inr ⟨rfl, _, ⟨shape, shaped, few, rfl⟩, rfl⟩⟩

/-- A body is refused for one of the reasons. -/
theorem stubBody_eq_error (embodied : m.flags.isBodiless = false) :
    stubBody m = .error fault ↔ m.Refused fault := by
  cases shaped : Shape.ofReturnType? m.ref.prototype.result with
  | none =>
    have refusal : stubBody m = .error (.unsupportedReturnType m.ref.owner.text m.ref.name
        m.ref.prototype.result.text) := by
      simp only [stubBody, shaped]
    rw [refusal]
    constructor
    · intro h
      cases h
      exact .unsupportedReturnType embodied shaped
    · intro refused
      cases refused with
      | unsupportedReturnType => rfl
      | tooManyParameters _ other _ =>
        rw [shaped] at other
        cases other
  | some shape =>
    by_cases many : maxArgumentWidth < m.ins
    · have refusal : stubBody m
          = .error (.tooManyParameters m.ref.render m.ref.prototype.parameterWidth) := by
        simp only [stubBody, shaped, if_pos many]
      rw [refusal]
      constructor
      · intro h
        cases h
        exact .tooManyParameters embodied shaped many
      · intro refused
        cases refused with
        | unsupportedReturnType _ other =>
          rw [shaped] at other
          cases other
        | tooManyParameters => rfl
    · have made := stubBody_eq_ok.mpr ⟨shape, shaped, Nat.le_of_not_lt many, rfl⟩
      rw [made]
      constructor
      · intro h
        cases h
      · intro refused
        cases refused with
        | unsupportedReturnType _ other =>
          rw [shaped] at other
          cases other
        | tooManyParameters _ _ other => exact absurd other many

theorem Method.stubbed_eq_error : m.stubbed = .error fault ↔ m.Refused fault := by
  rw [Method.stubbed]
  cases embodied : m.flags.isBodiless with
  | true =>
    constructor
    · intro h
      cases h
    · intro refused
      cases refused with
      | unsupportedReturnType other _ | tooManyParameters other _ _ =>
        rw [embodied] at other
        cases other
  | false =>
    rw [← stubBody_eq_error embodied, ← fault?_eq_some, ← fault?_eq_some]
    exact iff_of_eq (congrArg (· = some fault) (fault?_bind_ok _ _))

/-- What a method becomes is a stub of it. -/
theorem Method.stubOf_of_stubbed (made : m.stubbed = .ok n) : m.StubOf n := by
  rcases Method.stubbed_eq_ok.mp made with ⟨bodiless, rfl⟩ | ⟨embodied, body, _, rfl⟩
  · refine ⟨fun _ => rfl, rfl, rfl, fun embodied => ?_⟩
    rw [embodied] at bodiless
    cases bodiless
  · refine ⟨fun bodiless => ?_, rfl, rfl, fun _ => ⟨rfl, rfl, rfl⟩⟩
    rw [embodied] at bodiless
    cases bodiless

/-- A stub is made of what it leaves alone. -/
theorem Method.stubbed_stubbed (made : m.stubbed = .ok n) : n.stubbed = .ok n := by
  rcases Method.stubbed_eq_ok.mp made with ⟨bodiless, rfl⟩ | ⟨embodied, body, stub, rfl⟩
  · exact made
  · exact Method.stubbed_eq_ok.mpr (.inr ⟨embodied, body, stub, rfl⟩)

end Methods

/-! ## Files -/

/-- The methods of all classes. -/
def File.methods (f : File) : List Method := f.classes.flatMap ClassDecl.methods

/-- The class differs in its methods only, and in these as stubs may. -/
structure ClassDecl.StubOf (c d : ClassDecl) : Prop where
  rest : d = { c with methods := d.methods }
  methods : List.Forall₂ Method.StubOf c.methods d.methods

section Files

variable {c d : ClassDecl} {f s : File}

/-- The fault of a class is that of its first method with one. -/
theorem ClassDecl.fault?_stubbed (c : ClassDecl) :
    fault? c.stubbed = c.methods.findSome? fun m => fault? m.stubbed :=
  (fault?_bind_ok _ _).trans (fault?_mapM _ _)

/-- The fault of a file is the first one of its methods. -/
theorem File.fault?_stubbed (f : File) :
    fault? f.stubbed = f.methods.findSome? fun m => fault? m.stubbed := by
  calc fault? f.stubbed = fault? (f.classes.mapM ClassDecl.stubbed) := fault?_bind_ok _ _
    _ = f.classes.findSome? fun c => fault? c.stubbed := fault?_mapM _ _
    _ = f.classes.findSome? fun c => c.methods.findSome? fun m => fault? m.stubbed := by
      simp only [ClassDecl.fault?_stubbed]
    _ = f.methods.findSome? fun m => fault? m.stubbed := (findSome?_flatMap _ _ _).symm

/-- What a class becomes is a stub of it. -/
theorem ClassDecl.stubOf_of_stubbed (made : c.stubbed = .ok d) : c.StubOf d := by
  obtain ⟨methods, each, rfl⟩ := ClassDecl.stubbed_eq_ok.mp made
  exact ⟨rfl, each.imp fun _ _ => Method.stubOf_of_stubbed⟩

/-- The stub of a class is its own. -/
theorem ClassDecl.stubbed_stubbed (made : c.stubbed = .ok d) : d.stubbed = .ok d := by
  obtain ⟨methods, each, rfl⟩ := ClassDecl.stubbed_eq_ok.mp made
  refine ClassDecl.stubbed_eq_ok.mpr ⟨methods, List.forall₂_same.mpr fun n mem => ?_, rfl⟩
  obtain ⟨m, _, made⟩ := exists_of_mem_right each mem
  exact Method.stubbed_stubbed made

theorem File.stubbed_stubbed (made : f.stubbed = .ok s) : s.stubbed = .ok s := by
  obtain ⟨classes, each, rfl⟩ := File.stubbed_eq_ok.mp made
  refine File.stubbed_eq_ok.mpr ⟨classes, List.forall₂_same.mpr fun d mem => ?_, rfl⟩
  obtain ⟨c, _, made⟩ := exists_of_mem_right each mem
  exact ClassDecl.stubbed_stubbed made

/-- A file gets stubs exactly if all of its methods can have one. -/
theorem File.exists_stubbed : (∃ s, f.stubbed = .ok s) ↔ ∀ m ∈ f.methods, m.Stubbable := by
  rw [← fault?_eq_none, File.fault?_stubbed, List.findSome?_eq_none_iff]
  simp only [fault?_eq_none, Method.exists_stubbed]

/-- Otherwise the first method that cannot says why. -/
theorem File.stubbed_eq_error {fault : Fault} :
    f.stubbed = .error fault ↔ ∃ before m after, f.methods = before ++ m :: after
      ∧ (∀ n ∈ before, n.Stubbable) ∧ m.Refused fault := by
  rw [← fault?_eq_some, File.fault?_stubbed, List.findSome?_eq_some_iff]
  simp only [fault?_eq_some, fault?_eq_none, Method.stubbed_eq_error, Method.exists_stubbed]
  constructor
  · rintro ⟨before, m, after, listed, refused, able⟩
    exact ⟨before, m, after, listed, able, refused⟩
  · rintro ⟨before, m, after, listed, able, refused⟩
    exact ⟨before, m, after, listed, refused, able⟩

/-- Which files get stubs, why the others get none, and what stubs leave alone. -/
theorem File.stubbed_determined (f : File) :
    ((∃ s, f.stubbed = .ok s) ↔ ∀ m ∈ f.methods, m.Stubbable)
    ∧ (∀ fault, f.stubbed = .error fault ↔ ∃ before m after, f.methods = before ++ m :: after
        ∧ (∀ n ∈ before, n.Stubbable) ∧ m.Refused fault)
    ∧ (∀ method reason, f.stubbed ≠ .error (.unencodable method reason))
    ∧ (∀ m ∈ f.methods, ∀ shape, Shape.ofReturnType? m.ref.prototype.result = some shape →
        m.ins ≤ maxArgumentWidth →
        (Plan.ofShape shape m.isStatic m.ref.prototype.parameterWidth).Fits)
    ∧ ∀ s, f.stubbed = .ok s →
        s.version = f.version ∧ List.Forall₂ ClassDecl.StubOf f.classes s.classes
          ∧ s.stubbed = .ok s := by
  refine ⟨File.exists_stubbed, fun fault => File.stubbed_eq_error, fun method reason failed => ?_,
    fun m _ shape _ few => Plan.fits_ofShape shape few, fun s made => ?_⟩
  · obtain ⟨_, m, _, _, _, refused⟩ := File.stubbed_eq_error.mp failed
    cases refused
  · refine ⟨?_, ?_, File.stubbed_stubbed made⟩
    · obtain ⟨classes, _, rfl⟩ := File.stubbed_eq_ok.mp made
      rfl
    · obtain ⟨classes, each, rfl⟩ := File.stubbed_eq_ok.mp made
      exact each.imp fun _ _ => ClassDecl.stubOf_of_stubbed

end Files

/-- A method of the flags that takes and returns values of the types. -/
def plainMethod (flags : UInt32) (parameters : List Descriptor) (result : Descriptor) : Method :=
  ⟨⟨⟨"LA;"⟩, "m", ⟨result, parameters⟩⟩, ⟨flags⟩, [], [], none⟩

/-- A method with a receiver that takes `n` pairs and returns one. -/
def takesPairs (n : Nat) : Method := plainMethod Flag.publicBit (List.replicate n ⟨"J"⟩) ⟨"D"⟩

/-- A file with one class, of the methods. -/
def fileOfMethods (ms : List Method) : File :=
  ⟨File.defaultVersion, [⟨⟨"LA;"⟩, ⟨Flag.publicBit⟩, none, [], none, [], [], ms⟩]⟩

/-- With 127 pairs and a receiver all registers are taken. One pair more is refused, ahead
of a result without a shape. An abstract method may have any result. -/
theorem File.stubbed_determined_full :
    (∃ s, (fileOfMethods [plainMethod Flag.abstractBit [] ⟨"X"⟩, takesPairs 127]).stubbed = .ok s)
    ∧ (fileOfMethods [takesPairs 127, takesPairs 128, plainMethod Flag.publicBit [] ⟨"X"⟩]).stubbed
      = .error (.tooManyParameters (takesPairs 128).ref.render 256) := by
  have shaped : Shape.ofReturnType? ⟨"D"⟩ = some .wideZero := by decide
  have able : (takesPairs 127).Stubbable := .inr ⟨⟨_, shaped⟩, by decide +kernel⟩
  constructor
  · refine (File.stubbed_determined _).1.mpr ?_
    intro m mem
    rcases List.mem_pair.mp mem with rfl | rfl
    · exact .inl (by decide)
    · exact able
  · have words : (takesPairs 128).ref.prototype.parameterWidth = 256 := by decide +kernel
    rw [← words]
    refine ((File.stubbed_determined _).2.1 _).mpr ⟨[takesPairs 127], _, _, rfl, ?_, ?_⟩
    · intro m mem
      obtain rfl := List.mem_singleton.mp mem
      exact able
    · exact .tooManyParameters (by decide) shaped (by decide +kernel)

end StubJar.Dalvik
