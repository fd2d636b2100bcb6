import Mathlib.Data.List.TakeWhile
import StubJar.Proofs.Container.Attachments

/-!
# Members read back

The members of a class are read back one after another, each with what is
attached to its index. A method gets its body and its annotations
(`Legible.steps_methods`); where a class lists a field more than once, only the
first of them gets the annotations (`handOut`). Initial values are handed out in
turn, so that a static field in front of one with an initial value gets the
default of its type (`handOut_initialValues`).
-/

namespace StubJar.Container

open StubJar.Bytes StubJar.Dalvik StubJar.Order

/-! ## Distances -/

/-- The forms of members, each with the distance of its index from the one
before in front. -/
def distances {α : Type} (form : Nat → α → List UInt8) : Nat → List (Nat × α) → List (List UInt8)
  | _, [] => []
  | previous, (i, a) :: members => (uleb (i - previous) ++ form i a) :: distances form i members

/-- Members are written one by one, with the distances of their indices. -/
theorem encodeMembers_eq {α : Type} (form : Nat → α → List UInt8) (members : List (Nat × α)) :
    encodeMembers form members = (distances form 0 members).flatten := by
  rw [encodeMembers]
  generalize 0 = previous
  induction members generalizing previous with
  | nil => rfl
  | cons x members ih =>
    rw [List.map_cons, List.zip_cons_cons, List.flatMap_cons, ih x.1]
    rfl

/-- An index is found again from its distance. -/
theorem nextIndex_eq {previous i : Nat} (ascending : previous ≤ i) (small : i < 2 ^ 32) :
    Opened.nextIndex previous (i - previous) = .ok i := by
  rw [Opened.nextIndex, if_pos (by omega), Nat.add_sub_cancel' ascending]

/-- Flags that are known are read as they are. -/
theorem flagsOf_eq {known : UInt32} {flags : AccessFlags known} (item : String)
    (meaning : flags.isKnown = true) : Opened.flagsOf item flags.bits.toNat = .ok flags := by
  rw [Opened.flagsOf, UInt32.ofNat_toNat]
  exact if_pos meaning

/-! ## Code -/

/-- The offsets of the code by the indices of the methods. -/
def codeOffsetsOf (f : File) : Std.HashMap Nat Nat :=
  Std.HashMap.ofList (((bodies (placedOf f)).map Prod.fst).zip (layoutOf f).code.offsets.toList)

/-- The bodies of classes are those of their methods. -/
theorem mem_bodies {classes : List Placed} {i : Nat} {m : Method} {body : Body} :
    (i, m, body) ∈ bodies classes ↔
      ∃ c ∈ classes, (i, m) ∈ c.members.methods ∧ m.body = some body := by
  simp only [bodies, List.mem_flatMap, List.mem_filterMap, Option.map_eq_some_iff, Prod.mk.injEq,
    Prod.exists]
  constructor
  · rintro ⟨c, hc, j, n, hn, body, has, rfl, rfl, rfl⟩
    exact ⟨c, hc, hn, has⟩
  · rintro ⟨c, hc, hm, has⟩
    exact ⟨c, hc, i, m, hm, body, has, rfl, rfl, rfl⟩

section Bodies

variable {f : File}

/-- The bodies of a file are those of the methods of its classes. -/
theorem mem_bodies_placedOf {m : Method} {b : Body} :
    (∃ i, (i, m, b) ∈ bodies (placedOf f)) ↔ ∃ c ∈ f.classes, m ∈ c.methods ∧ m.body = some b := by
  constructor
  · rintro ⟨i, mem⟩
    obtain ⟨placed, hp, hm, has⟩ := mem_bodies.mp mem
    obtain ⟨stands, members⟩ := mem_placedOf.mp hp
    exact ⟨placed.type, List.mem_of_getElem? stands, (mem_methods.mp (members ▸ hm)).1, has⟩
  · rintro ⟨c, hc, hm, has⟩
    obtain ⟨j, stands⟩ := List.mem_iff_getElem?.mp hc
    exact ⟨_, mem_bodies.mpr ⟨⟨j, c, Members.ofClass (poolOf f) c⟩, mem_placedOf.mpr ⟨stands, rfl⟩,
      mem_methods.mpr ⟨hm, rfl⟩, has⟩⟩

/-- The bodies of a file pass if those of all methods do. -/
theorem checkBodies_eq_ok : checkBodies (bodies (placedOf f)) = .ok () ↔
    ∀ c ∈ f.classes, ∀ m ∈ c.methods, ∀ b, m.body = some b → checkBody m b = .ok () := by
  rw [checkBodies, forM_eq_ok]
  constructor
  · intro checked c hc m hm b has
    obtain ⟨i, mem⟩ := mem_bodies_placedOf.mpr ⟨c, hc, hm, has⟩
    exact checked _ mem
  · rintro each ⟨i, m, b⟩ mem
    obtain ⟨c, hc, hm, has⟩ := mem_bodies_placedOf.mp ⟨i, mem⟩
    exact each c hc m hm b has

end Bodies

namespace Legible

variable {f : File} {order : List Nat} {b : List UInt8} {c : Placed}

/-- A body that is written has no try blocks. -/
theorem tries_eq_zero (h : Writes f order b) {i : Nat} {m : Method} {body : Body}
    (mem : (i, m, body) ∈ bodies (placedOf f)) : body.tries = 0 := by
  have checked : checkBody m body = .ok () := forM_eq_ok.mp h.checked _ mem
  rw [checkBody] at checked
  split at checked
  · cases checked
  · rename_i few
    exact UInt16.le_zero_iff.mp (UInt16.not_lt.mp few)

/-- A body without try blocks is read back. -/
theorem reads_body {body : Body} (few : body.units.length < 2 ^ 32) (simple : body.tries = 0) :
    Reads (do
      let registers ← Decoder.number 2
      let ins ← Decoder.number 2
      let outs ← Decoder.number 2
      let tries ← Decoder.number 2
      let _ ← Decoder.number 4
      let size ← Decoder.number 4
      let units ← Decoder.times size (Decoder.number 2)
      return Body.mk (UInt16.ofNat registers) (UInt16.ofNat ins) (UInt16.ofNat outs)
        (UInt16.ofNat tries) (units.map UInt16.ofNat)) (encodeBody body) body := by
  have short (u : UInt16) : u.toNat < 256 ^ 2 := u.toNat_lt
  have units : Reads (Decoder.times body.units.length (Decoder.number 2))
      (body.units.flatMap fun u => le 2 u.toNat) (body.units.map UInt16.toNat) :=
    Reads.times_map fun u _ => Reads.number (short u)
  have same : Body.mk (UInt16.ofNat body.registers.toNat) (UInt16.ofNat body.ins.toNat)
      (UInt16.ofNat body.outs.toNat) (UInt16.ofNat 0)
      ((body.units.map UInt16.toNat).map UInt16.ofNat) = body := by
    have back : (body.units.map UInt16.toNat).map UInt16.ofNat = body.units := by
      rw [List.map_map]
      exact List.map_id'' (fun _ => UInt16.ofNat_toNat) _
    rw [back]
    simp only [UInt16.ofNat_toNat]
    rw [show UInt16.ofNat 0 = body.tries from simple.symm]
  simp only [encodeBody, List.append_assoc]
  refine (Reads.number (short _)).bind ((Reads.number (short _)).bind ((Reads.number (short _)).bind
    ((Reads.number (by decide)).bind ((Reads.number (by decide)).bind ((Reads.number few).bind ?_)))))
  have read := units.map fun units => Body.mk (UInt16.ofNat body.registers.toNat)
    (UInt16.ofNat body.ins.toNat) (UInt16.ofNat body.outs.toNat) (UInt16.ofNat 0)
    (units.map UInt16.ofNat)
  exact (congrArg (Reads _ _) same).mp read

/-- The code of a method is read where its index says; only a method without a
body has none. -/
theorem code_at (h : Legible f order b) (hc : c ∈ placedOf f) {i : Nat} {m : Method}
    (hm : (i, m) ∈ c.members.methods) :
    m.body.elim ((codeOffsetsOf f).getD i 0 = 0) fun body => 0 < (codeOffsetsOf f).getD i 0
      ∧ (codeOffsetsOf f).getD i 0 < 2 ^ 32
      ∧ (openedOf f b).bodyAt ((codeOffsetsOf f).getD i 0) = .ok body := by
  have run : (layoutOf f).code ∈ (layoutOf f).runs := by simp [Layout.runs]
  have found : List.Forall₂ (fun item offset => 0 < offset ∧ Stands b offset item)
      ((bodies (placedOf f)).map fun x => encodeBody x.2.2)
      (layoutOf f).code.offsets.toList := h.items_found run
  have each : List.Forall₂ (fun (x : Method × Body) offset => 0 < offset
      ∧ Stands b offset (encodeBody x.2)) ((bodies (placedOf f)).map Prod.snd)
      (layoutOf f).code.offsets.toList :=
    List.forall₂_map_left_iff.mpr (List.forall₂_map_left_iff.mp found)
  have related := lastFor_zip each ((bodies (placedOf f)).map Prod.fst) i
  have zipped : ((bodies (placedOf f)).map Prod.fst).zip ((bodies (placedOf f)).map Prod.snd)
      = bodies (placedOf f) := (List.zip_of_prod rfl rfl).symm
  rw [zipped] at related
  have only : ∀ x, (i, x) ∈ bodies (placedOf f) → m.body = some x.2 := by
    intro x mem
    obtain ⟨d, hd, hn, has⟩ := mem_bodies.mp mem
    rw [same_method h.distinct hc hd hm hn, has]
  rw [Std.HashMap.getD_eq_getD_getElem?, codeOffsetsOf, getElem?_ofList]
  cases has : m.body with
  | none =>
    have absent : lastFor (bodies (placedOf f)) i = none := by
      refine lastFor_eq_none.mpr fun listed => ?_
      obtain ⟨⟨i, x⟩, mem, rfl⟩ := List.mem_map.mp listed
      have body := only x mem
      rw [has] at body
      cases body
    rw [absent] at related
    generalize lastFor _ i = offset? at related ⊢
    cases related
    rfl
  | some body =>
    have listed : (i, m, body) ∈ bodies (placedOf f) := mem_bodies.mpr ⟨c, hc, hm, has⟩
    obtain ⟨x, present⟩ : ∃ x, lastFor (bodies (placedOf f)) i = some x := by
      cases last : lastFor (bodies (placedOf f)) i with
      | none => exact absurd (List.mem_map_of_mem listed) (lastFor_eq_none.mp last)
      | some x => exact ⟨x, rfl⟩
    have same := only x (mem_of_lastFor present)
    rw [has, Option.some.injEq] at same
    rw [present] at related
    generalize lastFor _ i = offset? at related ⊢
    cases related with
    | some holds =>
      rw [← same] at holds
      have short := h.length_lt holds.2
      rw [encodeBody, List.length_append, length_flatMap_of fun _ _ => length_le 2 _] at short
      exact ⟨holds.1, h.offset_lt holds.2, holds.2.decodeAt
        (reads_body (by omega) (tries_eq_zero h.toWrites listed))⟩

end Legible

/-! ## Methods -/

/-- The state in which methods are read finds what is attached to each of the
methods under its index. -/
def Awaits (p : Pool) (s : Opened.MethodState) (methods : List Method) : Prop :=
  ∀ m ∈ methods, s.annotations.getD (p.method m.ref) [] = normalSet m.annotations
    ∧ s.parameters.getD (p.method m.ref) [] = m.parameterAnnotations.map normalSet

/-- A method that is read takes what was noted for it, and the others still await theirs. -/
theorem Awaits.erase {p : Pool} {s : Opened.MethodState} {m : Method} {methods : List Method}
    (awaits : Awaits p s (m :: methods))
    (new : p.method m.ref ∉ methods.map fun m => p.method m.ref) :
    Awaits p ⟨p.method m.ref, s.annotations.erase (p.method m.ref),
      s.parameters.erase (p.method m.ref)⟩ methods := by
  intro n hn
  have differ : (p.method m.ref == p.method n.ref) = false :=
    beq_eq_false_iff_ne.mpr fun same => new (List.mem_map.mpr ⟨n, hn, same.symm⟩)
  rw [Std.HashMap.getD_erase, Std.HashMap.getD_erase, differ]
  exact awaits n (List.mem_cons_of_mem _ hn)

namespace Legible

variable {f : File} {order : List Nat} {b : List UInt8} {c : Placed}

/-- A method is read back with what is noted for it. -/
theorem reads_method (h : Legible f order b) (hc : c ∈ placedOf f) {m : Method}
    (hm : m ∈ c.type.methods) {s : Opened.MethodState}
    (ascending : s.index ≤ (poolOf f).method m.ref) (awaits : Awaits (poolOf f) s [m]) :
    Reads ((openedOf f b).method s)
      (uleb ((poolOf f).method m.ref - s.index)
        ++ encodeMethod (codeOffsetsOf f) ((poolOf f).method m.ref) m)
      (m.normal, ⟨(poolOf f).method m.ref, s.annotations.erase ((poolOf f).method m.ref),
        s.parameters.erase ((poolOf f).method m.ref)⟩) := by
  obtain ⟨stands, members⟩ := mem_placedOf.mp hc
  have inside := List.mem_of_getElem? stands
  obtain ⟨small, entry⟩ := h.indexed.method _ (method_mentioned inside hm)
  obtain ⟨annotations, parameters⟩ := awaits m List.mem_cons_self
  have code := h.code_at hc (members ▸ mem_methods.mpr ⟨hm, rfl⟩)
  have code_small : (codeOffsetsOf f).getD ((poolOf f).method m.ref) 0 < 2 ^ 32 := by
    cases has : m.body with
    | none =>
      rw [has] at code
      rw [show (codeOffsetsOf f).getD ((poolOf f).method m.ref) 0 = 0 from code]
      decide
    | some body =>
      rw [has] at code
      exact code.2.1
  rw [encodeMethod, ← List.append_nil (uleb ((codeOffsetsOf f).getD _ 0))]
  refine (Reads.uleb (by omega)).bind (Reads.lift_bind (nextIndex_eq ascending small) ?_)
  refine (Reads.uleb m.flags.bits.toNat_lt).bind ((Reads.uleb code_small).bind ?_)
  refine Reads.lift_bind entry (Reads.lift_bind
    (flagsOf_eq _ ((h.flags _ inside).methods m hm)) ?_)
  rw [annotations, parameters]
  cases has : m.body with
  | none =>
    rw [has] at code
    dsimp only
    rw [if_pos (show (codeOffsetsOf f).getD ((poolOf f).method m.ref) 0 = 0 from code), Method.normal,
      has]
    exact Reads.pure _
  | some body =>
    rw [has] at code
    obtain ⟨positive, _, found⟩ := code
    dsimp only
    rw [if_neg (Nat.ne_of_gt positive), Method.normal, has]
    exact ((Reads.lift found).map_fun some).bind (Reads.pure _)

/-- Methods are read back in their normal forms. Those of the other kind are
still awaited. -/
theorem steps_methods (h : Legible f order b) (hc : c ∈ placedOf f) {methods others : List Method}
    (listed : ∀ m ∈ methods, m ∈ c.type.methods)
    (nodup : ((methods ++ others).map fun m => (poolOf f).method m.ref).Nodup)
    {s : Opened.MethodState}
    (ascending : (s.index :: methods.map fun m => (poolOf f).method m.ref).Pairwise (· ≤ ·))
    (awaits : Awaits (poolOf f) s (methods ++ others)) :
    ∃ s', Reads.Steps (openedOf f b).method s
        (distances (encodeMethod (codeOffsetsOf f)) s.index
          (methods.map fun m => ((poolOf f).method m.ref, m)))
        (methods.map Method.normal) s'
      ∧ Awaits (poolOf f) s' others := by
  induction methods generalizing s with
  | nil => exact ⟨s, .nil s, awaits⟩
  | cons m methods ih =>
    obtain ⟨first, rest⟩ := List.pairwise_cons.mp ascending
    obtain ⟨new, nodup⟩ := List.nodup_cons.mp nodup
    have read := h.reads_method hc (listed m List.mem_cons_self) (first _ List.mem_cons_self)
      fun n hn => awaits n (by
        obtain rfl := List.mem_singleton.mp hn
        exact List.mem_cons_self)
    obtain ⟨s', steps, awaits'⟩ := ih (fun n hn => listed n (List.mem_cons_of_mem _ hn)) nodup
      (s := ⟨(poolOf f).method m.ref, _, _⟩) rest (awaits.erase new)
    exact ⟨s', .cons read steps, awaits'⟩

end Legible

/-! ## Fields -/

/-- What is noted for fields, where nothing is left for those of a list. -/
def without (noted : FieldRef → List Annotation) (refs : List FieldRef) (r : FieldRef) :
    List Annotation := if r ∈ refs then [] else noted r

/-- Fields with the values given to them in turn, and the annotations noted for
them, where the first of a reference takes them. -/
def handOut (noted : FieldRef → List Annotation) : List Value → List Field → List Field
  | _, [] => []
  | values, x :: fields =>
    ⟨x.ref, x.flags, values.head?, noted x.ref⟩
      :: handOut (without noted [x.ref]) values.tail fields

/-- Leaving out a field and then others leaves out all of them. -/
theorem without_cons (noted : FieldRef → List Annotation) (x : FieldRef) (refs : List FieldRef) :
    without (without noted [x]) refs = without noted (x :: refs) := by
  funext r
  simp only [without, List.mem_cons]
  by_cases same : r = x
  · simp [same]
  · simp [same]

namespace Legible

variable {f : File} {order : List Nat} {b : List UInt8} {c : Placed}

/-- A field is read back with the next value and what is noted for it. -/
theorem reads_field (h : Legible f order b) (hc : c ∈ placedOf f) {x : Field}
    (hx : x ∈ c.type.fields) {s : Opened.FieldState}
    (ascending : s.index ≤ (poolOf f).field x.ref) :
    Reads ((openedOf f b).field s)
      (uleb ((poolOf f).field x.ref - s.index) ++ encodeField ((poolOf f).field x.ref) x)
      (⟨x.ref, x.flags, s.values.head?, s.annotations.getD ((poolOf f).field x.ref) []⟩,
        ⟨(poolOf f).field x.ref, s.annotations.erase ((poolOf f).field x.ref), s.values.tail⟩) := by
  have inside := List.mem_of_getElem? (mem_placedOf.mp hc).1
  obtain ⟨small, entry⟩ := h.indexed.field _ (field_mentioned inside hx)
  rw [encodeField, ← List.append_nil (uleb x.flags.bits.toNat)]
  refine (Reads.uleb (by omega)).bind (Reads.lift_bind (nextIndex_eq ascending small) ?_)
  refine (Reads.uleb x.flags.bits.toNat_lt).bind (Reads.lift_bind entry (Reads.lift_bind
    (flagsOf_eq _ ((h.flags _ inside).fields x hx)) ?_))
  exact Reads.pure _

/-- Fields are read back with what is handed out to them. -/
theorem steps_fields (h : Legible f order b) (hc : c ∈ placedOf f) {fields : List Field}
    (listed : ∀ x ∈ fields, x ∈ c.type.fields) {s : Opened.FieldState}
    {noted : FieldRef → List Annotation}
    (ascending : (s.index :: fields.map fun x => (poolOf f).field x.ref).Pairwise (· ≤ ·))
    (agrees : ∀ x ∈ c.type.fields,
      s.annotations.getD ((poolOf f).field x.ref) [] = noted x.ref) :
    ∃ s', Reads.Steps (openedOf f b).field s
        (distances encodeField s.index (fields.map fun x => ((poolOf f).field x.ref, x)))
        (handOut noted s.values fields) s'
      ∧ ∀ x ∈ c.type.fields, s'.annotations.getD ((poolOf f).field x.ref) []
        = without noted (fields.map Field.ref) x.ref := by
  induction fields generalizing s noted with
  | nil => exact ⟨s, .nil s, fun x hx => by rw [agrees x hx]; rfl⟩
  | cons y fields ih =>
    obtain ⟨first, rest⟩ := List.pairwise_cons.mp ascending
    have hy := listed y List.mem_cons_self
    have inside := List.mem_of_getElem? (mem_placedOf.mp hc).1
    have read := h.reads_field hc hy (first _ List.mem_cons_self)
    rw [agrees y hy] at read
    have erased : ∀ x ∈ c.type.fields,
        (s.annotations.erase ((poolOf f).field y.ref)).getD ((poolOf f).field x.ref) []
          = without noted [y.ref] x.ref := by
      intro x hx
      rw [Std.HashMap.getD_erase, without, agrees x hx]
      by_cases same : x.ref = y.ref
      · simp [same]
      · have differ : ¬ (poolOf f).field y.ref = (poolOf f).field x.ref := fun equal =>
          same (Table.indexOf_injective _ (field_mentioned inside hx) (field_mentioned inside hy)
            equal.symm)
        simp [same, differ]
    obtain ⟨s', steps, agrees'⟩ := ih (fun x hx => listed x (List.mem_cons_of_mem _ hx))
      (s := ⟨(poolOf f).field y.ref, _, s.values.tail⟩) rest erased
    rw [without_cons] at agrees'
    exact ⟨s', .cons read steps, agrees'⟩

end Legible

/-! ## Initial values -/

/-- The initial values of static fields, up to the last that is given. -/
def initials : List Field → List Value
  | [] => []
  | x :: fields =>
    if (x :: fields).any (·.initial.isSome) then
      (x.initial.getD (Value.default x.ref.type)).normal :: initials fields
    else []

/-- Fields without values have no initial values. -/
theorem initials_eq_nil {fields : List Field} (absent : ∀ x ∈ fields, x.initial = none) :
    initials fields = [] := by
  cases fields with
  | nil => rfl
  | cons x fields =>
    have none : (x :: fields).any (·.initial.isSome) = false :=
      List.any_eq_false.mpr fun y hy => by simp [absent y hy]
    rw [initials, none]
    rfl

/-- Initial values are those of the normal forms. -/
theorem initials_map_normal (fields : List Field) :
    initials (fields.map Field.normal) = initials fields := by
  have given (xs : List Field) :
      (xs.map Field.normal).any (·.initial.isSome) = xs.any (·.initial.isSome) := by
    simp [List.any_map, Function.comp_def, Field.normal]
  induction fields with
  | nil => rfl
  | cons x fields ih =>
    have value : (x.normal.initial.getD (Value.default x.ref.type)).normal
        = (x.initial.getD (Value.default x.ref.type)).normal := by
      rw [Field.normal]
      cases x.initial with
      | none => rfl
      | some v => exact Value.normal_normal v
    have some := given (x :: fields)
    rw [List.map_cons] at some ⊢
    rw [initials, initials, some, ih]
    simp only [value, show x.normal.ref = x.ref from rfl]

/-- The normal forms of initial values are those of the static fields. -/
theorem initialValues_normal (m : Members) :
    m.initialValues.map Value.normal = initials (m.statics.map Prod.snd) := by
  rw [Members.initialValues]
  induction m.statics with
  | nil => rfl
  | cons x members ih =>
    rw [List.reverse_cons, List.dropWhile_append, List.map_cons, initials]
    split
    · -- Nothing behind the field has an initial value.
      rename_i empty
      have absent : ∀ y ∈ members, y.2.initial = none := fun y hy => Option.isNone_iff_eq_none.mp
        (List.dropWhile_eq_nil_iff.mp (List.isEmpty_iff.mp empty) y (List.mem_reverse.mpr hy))
      have later : initials (members.map Prod.snd) = [] := initials_eq_nil fun y hy => by
        obtain ⟨z, hz, rfl⟩ := List.mem_map.mp hy
        exact absent z hz
      have none : (members.map Prod.snd).any (·.initial.isSome) = false :=
        List.any_eq_false.mpr fun y hy => by
          obtain ⟨z, hz, rfl⟩ := List.mem_map.mp hy
          simp [absent z hz]
      rw [List.any_cons, none, Bool.or_false, later]
      cases first : x.2.initial <;> simp [first]
    · rename_i some
      have given : (x.2 :: members.map Prod.snd).any (·.initial.isSome) = true := by
        by_contra missing
        refine some (List.isEmpty_iff.mpr (List.dropWhile_eq_nil_iff.mpr fun y hy => ?_))
        have member : y.2 ∈ x.2 :: members.map Prod.snd :=
          List.mem_cons_of_mem _ (List.mem_map_of_mem (List.mem_reverse.mp hy))
        by_contra present
        exact missing (List.any_eq_true.mpr ⟨y.2, member, by simpa [Option.isSome_iff_ne_none] using present⟩)
      rw [if_pos given, List.reverse_append, List.reverse_singleton, List.singleton_append,
        List.map_cons, List.map_cons, ih]

/-- A default is its own normal form. -/
theorem default_normal (d : Descriptor) : (Value.default d).normal = Value.default d := by
  rw [Value.default]
  split <;> rfl

/-- What is handed out depends on what is noted for the fields alone. -/
theorem handOut_congr {noted noted' : FieldRef → List Annotation} {fields : List Field}
    (values : List Value) (same : ∀ x ∈ fields, noted x.ref = noted' x.ref) :
    handOut noted values fields = handOut noted' values fields := by
  induction fields generalizing noted noted' values with
  | nil => rfl
  | cons x fields ih =>
    rw [handOut, handOut, same x List.mem_cons_self]
    congr 1
    refine ih _ fun y hy => ?_
    rw [without, without, same y (List.mem_cons_of_mem _ hy)]

/-- The first field gets the first value, and the others get the rest. -/
theorem handOut_cons {noted : FieldRef → List Annotation} {x : Field} {fields : List Field}
    (values : List Value) (new : x.ref ∉ fields.map Field.ref) :
    handOut noted values (x :: fields)
      = ⟨x.ref, x.flags, values.head?, noted x.ref⟩ :: handOut noted values.tail fields := by
  rw [handOut, handOut_congr]
  intro y hy
  have differ : y.ref ∉ [x.ref] := fun same =>
    new (List.mem_singleton.mp same ▸ List.mem_map_of_mem hy)
  rw [without, if_neg differ]

/-- Handing the initial values out in turn fills the gaps between them. -/
theorem handOut_initials (noted : FieldRef → List Annotation) {fields : List Field}
    (distinct : (fields.map Field.ref).Nodup) :
    handOut noted (initials fields) fields
      = fillInitials (fields.map fun x =>
        { x with initial := x.initial.map Value.normal, annotations := noted x.ref }) := by
  induction fields with
  | nil => rfl
  | cons x fields ih =>
    obtain ⟨new, distinct⟩ := List.nodup_cons.mp distinct
    have any : ∀ fields : List Field, (fields.map fun x : Field =>
        { x with initial := x.initial.map Value.normal, annotations := noted x.ref }).any
          (·.initial.isSome) = fields.any (·.initial.isSome) := fun fields => by
      rw [List.any_map]
      refine congrArg (fields.any ·) (funext fun y => ?_)
      exact Option.isSome_map
    have filled : (x.initial.map Value.normal).getD (Value.default x.ref.type)
        = (x.initial.getD (Value.default x.ref.type)).normal := by
      cases x.initial with
      | none => exact (default_normal _).symm
      | some v => rfl
    rw [handOut_cons _ new, initials]
    have tail := any (x :: fields)
    rw [List.map_cons] at tail ⊢
    rw [fillInitials, tail]
    split
    · rw [List.head?_cons, List.tail_cons, ih distinct, filled]
    · rename_i absent
      have later : initials fields = [] := initials_eq_nil fun y hy => by
        have missing := List.any_eq_false.mp (Bool.eq_false_iff.mpr absent) y
          (List.mem_cons_of_mem _ hy)
        simpa using missing
      rw [← ih distinct, later]
      rfl

/-- Without initial values the fields get none. -/
theorem handOut_nil (noted : FieldRef → List Annotation) {fields : List Field}
    (distinct : (fields.map Field.ref).Nodup) :
    handOut noted [] fields
      = fields.map fun x => { x with initial := none, annotations := noted x.ref } := by
  induction fields with
  | nil => rfl
  | cons x fields ih =>
    obtain ⟨new, distinct⟩ := List.nodup_cons.mp distinct
    rw [handOut_cons _ new, List.tail_nil, ih distinct]
    rfl

end StubJar.Container
