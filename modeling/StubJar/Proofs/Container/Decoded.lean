import StubJar.Proofs.Container.ReadValues
import StubJar.Proofs.Container.RoundTrip

/-!
# Files that were read

A file that was read off a container has a known version, flags with a meaning
only, and handles whose kinds go with their members (`sound_of_decode`): the reader
checks flags and versions, and takes the member of a handle from the table that
its kind asks for. What such a file is written to is read again (`Sound.legible`).
-/

namespace StubJar.Container

open StubJar.Dalvik StubJar.Order

/-- Every method handle among the values goes with its member. -/
def HandlesAgree (values : List Value) : Prop := ∀ h, .methodHandle h ∈ values → h.Agrees

/-- What is known of a class that was read. -/
structure SoundClass (c : ClassDecl) : Prop where
  flags : c.FlagsKnown
  handles : HandlesAgree c.values

/-- What is known of a file that was read. -/
structure Sound (f : File) : Prop where
  known : 35 ≤ f.version ∧ f.version ≤ 39
  classes : ∀ c ∈ f.classes, SoundClass c

namespace HandlesAgree

/-- No values have no handles that disagree. -/
theorem nil : HandlesAgree [] := fun _ mem => absurd mem List.not_mem_nil

/-- Values of two lists agree if those of each do. -/
theorem append {vs ws : List Value} : HandlesAgree (vs ++ ws) ↔ HandlesAgree vs ∧ HandlesAgree ws := by
  simp only [HandlesAgree, List.mem_append, or_imp, forall_and]

/-- So it is with any number of lists. -/
theorem flatMap {α : Type} {g : α → List Value} {items : List α} :
    HandlesAgree (items.flatMap g) ↔ ∀ a ∈ items, HandlesAgree (g a) := by
  simp only [HandlesAgree, List.mem_flatMap]
  exact ⟨fun h a ha x hx => h x ⟨a, ha, hx⟩, fun h x ⟨a, ha, hx⟩ => h a ha x hx⟩

/-- A value that is no handle brings none of its own. -/
theorem cons {v : Value} {vs : List Value} (other : ∀ h, v ≠ .methodHandle h)
    (rest : HandlesAgree vs) : HandlesAgree (v :: vs) := by
  intro h mem
  rcases List.mem_cons.mp mem with same | later
  · exact absurd same.symm (other h)
  · exact rest h later

/-- Handles inside an array agree if those of its items do. -/
theorem allParts {vs : List Value} (each : ∀ v ∈ vs, HandlesAgree v.parts) :
    HandlesAgree (Value.allParts vs) := by
  induction vs with
  | nil => exact nil
  | cons v vs ih =>
    exact append.mpr ⟨each v List.mem_cons_self, ih fun w hw => each w (List.mem_cons_of_mem _ hw)⟩

theorem elementParts {elements : List (String × Value)}
    (each : ∀ e ∈ elements, HandlesAgree e.2.parts) : HandlesAgree (Value.elementParts elements) := by
  induction elements with
  | nil => exact nil
  | cons e elements ih =>
    exact append.mpr ⟨each e List.mem_cons_self, ih fun x hx => each x (List.mem_cons_of_mem _ hx)⟩

end HandlesAgree

/-! ## Values -/

section Values

variable {t : Tables}

/-- The handles of a value come from the table of handles. -/
theorem inherited_handlesAgree (agree : ∀ h ∈ t.handles, h.Agrees) :
    Inherited t fun v => HandlesAgree v.parts where
  means {bytes v} means := by
    cases v with
    | methodHandle h =>
      intro h' mem
      obtain ⟨rfl⟩ := List.mem_singleton.mp mem
      exact agree _ (Array.mem_of_getElem? means)
    | array | nested => exact absurd means id
    | _ => exact HandlesAgree.cons (fun _ => by simp) HandlesAgree.nil
  null := HandlesAgree.cons (fun _ => by simp) HandlesAgree.nil
  boolean _ := HandlesAgree.cons (fun _ => by simp) HandlesAgree.nil
  array _ each := HandlesAgree.cons (fun _ => by simp) (HandlesAgree.allParts each)
  nested _ _ each :=
    HandlesAgree.cons (fun _ => by simp) (HandlesAgree.elementParts fun e he => (each e he).2)

/-- An annotation that is read has handles that agree. -/
theorem yields_annotationItem (agree : ∀ h ∈ t.handles, h.Agrees) (depth : Nat) :
    Yields (decodeAnnotationItem t depth) fun a => HandlesAgree a.values := by
  have inherited := inherited_handlesAgree agree
  refine Yields.skip fun code => ?_
  split
  · exact Yields.throw
  · exact (inherited.parts (inherited.value depth)).bind fun x holds => Yields.pure fun h mem =>
      holds h (List.mem_cons_of_mem _ mem)

end Values

/-! ## Annotations and members -/

/-- The handles in annotations go with their members. -/
def Agreeing (annotations : List Annotation) : Prop := ∀ a ∈ annotations, HandlesAgree a.values

theorem Agreeing.nil : Agreeing [] := fun _ mem => absurd mem List.not_mem_nil

/-- The values of annotations agree with them. -/
theorem Agreeing.values {annotations : List Annotation} (h : Agreeing annotations) :
    HandlesAgree (annotations.flatMap Annotation.values) := HandlesAgree.flatMap.mpr h

/-- The handles in a directory go with their members. -/
structure SoundDirectory (d : Directory) : Prop where
  type : Agreeing d.type
  fields : ∀ i, Agreeing (d.fields.getD i [])
  methods : ∀ i, Agreeing (d.methods.getD i [])
  parameters : ∀ i, ∀ annotations ∈ d.parameters.getD i [], Agreeing annotations

/-- What is known of a field that was read. -/
structure SoundField (x : Field) : Prop where
  flags : x.flags.isKnown = true
  initial : ∀ v, x.initial = some v → HandlesAgree v.parts
  annotations : Agreeing x.annotations

/-- What is known of a method that was read. -/
structure SoundMethod (m : Method) : Prop where
  flags : m.flags.isKnown = true
  annotations : Agreeing m.annotations
  parameters : ∀ annotations ∈ m.parameterAnnotations, Agreeing annotations

/-- Flags that are read are known. -/
theorem flagsOf_ok {known : UInt32} {item : String} {bits : Nat} {flags : AccessFlags known}
    (h : Opened.flagsOf item bits = .ok flags) : flags.isKnown = true := by
  rw [Opened.flagsOf] at h
  split at h
  · rename_i meaning
    cases h
    exact meaning
  · cases h

/-- A map from which an entry is taken out finds nothing new. -/
theorem getD_erase_of {β : Type} {P : List β → Prop} (empty : P []) {found : Std.HashMap Nat (List β)}
    (each : ∀ i, P (found.getD i [])) (k i : Nat) : P ((found.erase k).getD i []) := by
  rw [Std.HashMap.getD_erase]
  split
  · exact empty
  · exact each i

/-- Every entry of a directory leads to what is read at its offset. -/
theorem yields_directoryPart {β : Type} {P : List β → Prop} (empty : P [])
    {at? : Nat → Except DecodeFault (List β)} (each : ∀ offset a, at? offset = .ok a → P a)
    (size : Nat) :
    Yields (Opened.directoryPart size at?) fun found => ∀ i, P (found.getD i []) := by
  refine Yields.bind (P := fun entries : List (Nat × List β) => ∀ e ∈ entries, P e.2)
    (Yields.times ?_ size) fun entries holds => Yields.pure fun i => ?_
  · exact Yields.skip fun _ => Yields.skip fun offset => Yields.lift_bind fun a found =>
      Yields.pure (each offset a found)
  · rw [Std.HashMap.getD_eq_getD_getElem?, getElem?_foldl_insert, Std.HashMap.getElem?_empty,
      Option.or_none]
    cases last : lastFor entries i with
    | none => exact empty
    | some a => exact holds _ (mem_of_lastFor last)

section Opened

variable {c : Opened}

/-- Sets that are read have handles that agree. -/
theorem annotationsAt_sound (agree : ∀ h ∈ c.tables.handles, h.Agrees) {offset : Nat}
    {annotations : List Annotation} (h : c.annotationsAt offset = .ok annotations) :
    Agreeing annotations := by
  refine Yields.listAt ?_ h
  exact Yields.skip fun size => Yields.times (Yields.skip fun item => Yields.lift fun a found =>
    Yields.decodeAt (yields_annotationItem agree _) found) size

theorem parameterAnnotationsAt_sound (agree : ∀ h ∈ c.tables.handles, h.Agrees) {offset : Nat}
    {sets : List (List Annotation)} (h : c.parameterAnnotationsAt offset = .ok sets) :
    ∀ annotations ∈ sets, Agreeing annotations := by
  refine Yields.listAt ?_ h
  exact Yields.skip fun size => Yields.times (Yields.skip fun set => Yields.lift fun _ found =>
    annotationsAt_sound agree found) size

theorem directoryAt_sound (agree : ∀ h ∈ c.tables.handles, h.Agrees) {offset : Nat} {d : Directory}
    (h : c.directoryAt offset = .ok d) : SoundDirectory d := by
  rw [Opened.directoryAt] at h
  split at h
  · cases h
    refine ⟨Agreeing.nil, fun i => ?_, fun i => ?_, fun i => ?_⟩
    · rw [show Directory.empty.fields.getD i [] = [] from Std.HashMap.getD_empty]
      exact Agreeing.nil
    · rw [show Directory.empty.methods.getD i [] = [] from Std.HashMap.getD_empty]
      exact Agreeing.nil
    · rw [show Directory.empty.parameters.getD i [] = [] from Std.HashMap.getD_empty]
      exact fun _ mem => absurd mem List.not_mem_nil
  · refine Yields.decodeAt ?_ h
    refine Yields.skip fun _ => Yields.skip fun _ => Yields.skip fun _ => Yields.skip fun _ =>
      Yields.lift_bind fun type found => ?_
    refine (yields_directoryPart (P := Agreeing) Agreeing.nil
      (fun _ _ => annotationsAt_sound agree) _).bind fun fields sound_fields => ?_
    refine (yields_directoryPart (P := Agreeing) Agreeing.nil
      (fun _ _ => annotationsAt_sound agree) _).bind fun methods sound_methods => ?_
    refine (yields_directoryPart (P := fun sets => ∀ annotations ∈ sets, Agreeing annotations)
      (fun _ mem => absurd mem List.not_mem_nil)
      (fun _ _ => parameterAnnotationsAt_sound agree) _).bind fun parameters sound_parameters => ?_
    exact Yields.pure ⟨annotationsAt_sound agree found, sound_fields, sound_methods,
      sound_parameters⟩

/-- What is handed out to fields goes with its members. -/
structure SoundFields (s : Opened.FieldState) : Prop where
  annotations : ∀ i, Agreeing (s.annotations.getD i [])
  values : ∀ v ∈ s.values, HandlesAgree v.parts

/-- A field that is read is sound. -/
theorem yields_field (s : Opened.FieldState) (sound : SoundFields s) :
    Yields (c.field s) fun x => SoundField x.1 ∧ SoundFields x.2 := by
  refine Yields.skip fun distance => Yields.lift_bind fun index _ => Yields.skip fun bits =>
    Yields.lift_bind fun ref _ => Yields.lift_bind fun flags found => Yields.pure ⟨?_, ?_⟩
  · exact ⟨flagsOf_ok found, fun v first => sound.values v (List.mem_of_head? first),
      sound.annotations index⟩
  · exact ⟨getD_erase_of Agreeing.nil sound.annotations index,
      fun v mem => sound.values v (List.mem_of_mem_tail mem)⟩

/-- What is handed out to methods goes with its members. -/
structure SoundMethods (s : Opened.MethodState) : Prop where
  annotations : ∀ i, Agreeing (s.annotations.getD i [])
  parameters : ∀ i, ∀ annotations ∈ s.parameters.getD i [], Agreeing annotations

theorem yields_method (s : Opened.MethodState) (sound : SoundMethods s) :
    Yields (c.method s) fun x => SoundMethod x.1 ∧ SoundMethods x.2 := by
  refine Yields.skip fun distance => Yields.lift_bind fun index _ => Yields.skip fun bits =>
    Yields.skip fun code => Yields.lift_bind fun ref _ => Yields.lift_bind fun flags found => ?_
  have made (body : Option Body) : Yields (Pure.pure
      ((⟨ref, flags, s.annotations.getD index [], s.parameters.getD index [], body⟩,
        ⟨index, s.annotations.erase index, s.parameters.erase index⟩)
        : Method × Opened.MethodState) : Decoder (Method × Opened.MethodState))
      fun x => SoundMethod x.1 ∧ SoundMethods x.2 := by
    refine Yields.pure ⟨⟨flagsOf_ok found, sound.annotations index, sound.parameters index⟩, ?_⟩
    exact ⟨getD_erase_of Agreeing.nil sound.annotations index,
      getD_erase_of (P := fun sets => ∀ annotations ∈ sets, Agreeing annotations)
        (fun _ mem => absurd mem List.not_mem_nil) sound.parameters index⟩
  split
  · exact Yields.skip made
  · exact Yields.skip made

/-- So are all members of a class. -/
theorem membersAt_sound {offset : Nat} {d : Directory} {values : List Value}
    {members : List Field × List Method} (directory : SoundDirectory d)
    (agree : ∀ v ∈ values, HandlesAgree v.parts) (h : c.membersAt offset d values = .ok members) :
    (∀ x ∈ members.1, SoundField x) ∧ ∀ m ∈ members.2, SoundMethod m := by
  rw [Opened.membersAt] at h
  split at h
  · cases h
    exact ⟨fun _ mem => absurd mem List.not_mem_nil, fun _ mem => absurd mem List.not_mem_nil⟩
  · refine Yields.decodeAt (P := fun members : List Field × List Method =>
      (∀ x ∈ members.1, SoundField x) ∧ ∀ m ∈ members.2, SoundMethod m) ?_ h
    refine Yields.skip fun _ => Yields.skip fun _ => Yields.skip fun _ => Yields.skip fun _ => ?_
    refine (Yields.unfold yields_field _ ⟨directory.fields, agree⟩).bind fun statics first => ?_
    refine (Yields.unfold yields_field _ (s := ⟨0, statics.2.annotations, []⟩)
      ⟨first.2.annotations, fun _ mem => absurd mem List.not_mem_nil⟩).bind fun instances second => ?_
    refine (Yields.unfold yields_method _ ⟨directory.methods, directory.parameters⟩).bind
      fun directs third => ?_
    refine (Yields.unfold yields_method _ (s := ⟨0, directs.2.annotations, directs.2.parameters⟩)
      ⟨third.2.annotations, third.2.parameters⟩).bind fun virtuals fourth => Yields.pure ⟨?_, ?_⟩
    · exact fun x mem => (List.mem_append.mp mem).elim (first.1 x) (second.1 x)
    · exact fun m mem => (List.mem_append.mp mem).elim (third.1 m) (fourth.1 m)

/-- A class made of what was read. -/
theorem soundClass_of {d : ClassDecl} (flags : d.flags.isKnown = true)
    (annotations : Agreeing d.annotations) (fields : ∀ x ∈ d.fields, SoundField x)
    (methods : ∀ m ∈ d.methods, SoundMethod m) : SoundClass d := by
  refine ⟨⟨flags, fun x hx => (fields x hx).flags, fun m hm => (methods m hm).flags⟩, ?_⟩
  refine HandlesAgree.append.mpr ⟨HandlesAgree.append.mpr ⟨annotations.values,
    HandlesAgree.flatMap.mpr fun x hx => HandlesAgree.append.mpr ⟨?_, (fields x hx).annotations.values⟩⟩,
    HandlesAgree.flatMap.mpr fun m hm => HandlesAgree.flatMap.mpr fun a ha => ?_⟩
  · cases given : x.initial with
    | none => exact HandlesAgree.nil
    | some v => exact (fields x hx).initial v given
  · rcases List.mem_append.mp ha with own | parameter
    · exact (methods m hm).annotations a own
    · obtain ⟨annotations, listed, inside⟩ := List.mem_flatten.mp parameter
      exact (methods m hm).parameters annotations listed a inside

theorem yields_classRow (agree : ∀ h ∈ c.tables.handles, h.Agrees) :
    Yields c.classRow SoundClass := by
  refine Yields.skip fun _ => Yields.skip fun _ => Yields.skip fun _ => Yields.skip fun _ =>
    Yields.skip fun _ => Yields.skip fun _ => Yields.skip fun _ => Yields.skip fun _ => ?_
  refine Yields.lift_bind fun type _ => Yields.lift_bind fun flags known => Yields.lift_bind fun _ _ =>
    Yields.lift_bind fun _ _ => Yields.lift_bind fun _ _ => Yields.lift_bind fun directory found =>
    Yields.lift_bind fun values read => Yields.lift_bind fun members listed => Yields.pure ?_
  have sound := directoryAt_sound agree found
  have initial := Yields.listAt ((inherited_handlesAgree agree).value _).countedList read
  have parts := membersAt_sound sound initial listed
  exact soundClass_of (flagsOf_ok known) sound.type parts.1 parts.2

end Opened

/-! ## Files -/

/-- A handle that is read has a member that goes with its kind. -/
theorem yields_handleRow (t : Tables) : Yields (handleRow t) MethodHandle.Agrees := by
  refine Yields.skip fun _ => Yields.skip fun _ => Yields.skip fun _ => Yields.skip fun _ => ?_
  split
  · exact Yields.throw
  · rename_i kind _
    split
    · rename_i accessor
      exact Yields.lift_bind fun r _ => Yields.pure accessor
    · rename_i invoker
      exact Yields.lift_bind fun r _ => Yields.pure (Bool.eq_false_iff.mpr invoker)

/-- So have all handles of the tables. -/
theorem readTables_agree {bytes : List UInt8} {image : Image} {t : Tables}
    (h : readTables bytes image = .ok t) : ∀ x ∈ t.handles, x.Agrees := by
  rw [readTables] at h
  obtain ⟨_, _, h⟩ := bind_eq_ok.mp h
  obtain ⟨_, _, h⟩ := bind_eq_ok.mp h
  obtain ⟨_, _, h⟩ := bind_eq_ok.mp h
  obtain ⟨_, _, h⟩ := bind_eq_ok.mp h
  obtain ⟨_, _, h⟩ := bind_eq_ok.mp h
  obtain ⟨handles, read, h⟩ := bind_eq_ok.mp h
  cases h
  have agree : ∀ entry ∈ handles, ∀ x ∈ entry, x.Agrees := by
    refine Yields.listAt ?_ read
    refine Yields.skip fun size => Yields.times (P := fun entry : List MethodHandle =>
      ∀ x ∈ entry, x.Agrees) ?_ size
    refine Yields.skip fun _ => Yields.skip fun _ => Yields.skip fun count => Yields.skip fun _ => ?_
    split
    · exact Yields.lift fun entry found => Yields.decodeAt ((yields_handleRow _).times count) found
    · exact Yields.pure fun _ mem => absurd mem List.not_mem_nil
  intro x mem
  obtain ⟨entry, listed, inside⟩ := List.mem_flatten.mp (List.mem_toArray.mp mem)
  exact agree entry listed x inside

/-- A version that is read is known. -/
theorem versionOf_ok {digits : List UInt8} {version : Nat} (h : versionOf digits = .ok version) :
    35 ≤ version ∧ version ≤ 39 := by
  rw [versionOf] at h
  split at h
  · split at h
    · rename_i known
      cases h
      simpa using known
    · cases h
  · cases h

/-- So is that of a header that is accepted. -/
theorem checkHeader_version {bytes checked : List UInt8} {version : Nat}
    (h : checkHeader bytes = .ok (version, checked)) : 35 ≤ version ∧ version ≤ 39 := by
  rw [checkHeader] at h
  obtain ⟨_, _, h⟩ := bind_eq_ok.mp h
  obtain ⟨_, _, h⟩ := bind_eq_ok.mp h
  obtain ⟨found, known, h⟩ := bind_eq_ok.mp h
  obtain ⟨_, _, h⟩ := bind_eq_ok.mp h
  obtain ⟨_, _, h⟩ := bind_eq_ok.mp h
  obtain ⟨_, _, h⟩ := bind_eq_ok.mp h
  cases h
  exact versionOf_ok known

/-- What is known of a file that was read. -/
theorem sound_of_decode {bytes : List UInt8} {f : File} (h : decode bytes = .ok f) : Sound f := by
  rw [decode] at h
  obtain ⟨c, opened, h⟩ := bind_eq_ok.mp h
  rw [Opened.file] at h
  obtain ⟨classes, listed, h⟩ := bind_eq_ok.mp h
  cases h
  rw [openContainer] at opened
  obtain ⟨⟨version, checked⟩, header, opened⟩ := bind_eq_ok.mp opened
  obtain ⟨t, tables, opened⟩ := bind_eq_ok.mp opened
  cases opened
  refine ⟨checkHeader_version header, ?_⟩
  rw [rowsAt] at listed
  obtain ⟨rows, read, same⟩ := bind_eq_ok.mp listed
  cases same
  exact Yields.decodeAt ((yields_classRow (readTables_agree tables)).times _) read

/-- What a sound file is written to is read back. -/
theorem Sound.legible {f : File} (h : Sound f) (distinct : f.MethodsDistinct) {order : List Nat}
    {b : List UInt8} (writes : Writes f order b) (small : b.length < 2 ^ 32) : Legible f order b := by
  refine ⟨writes, h.known, fun c hc => (h.classes c hc).flags, fun k mem => ?_, distinct, small⟩
  obtain ⟨c, hc, inside⟩ := List.mem_flatMap.mp (handle_value mem)
  exact (h.classes c hc).handles k inside

end StubJar.Container
