import StubJar.Proofs.ClassFile.Contents

/-!
# Counts

A class file is written whatever it counts: of a number that is too large for the bytes
of a count, the lower bytes are written. A reader then takes as many items as these say
and goes on in the middle of the list (`counted_mod`), so a list is read as a whole just
where its length fits (`whole_counted_iff`), and a text just where two bytes can count its
own (`whole_utf8_iff`).

Nothing longer is ever read: each list of a class that was read can be counted
(`Resolved.countable_of_read`).
-/

namespace StubJar.ClassFile.Grammar

open StubJar.Bytes

variable {α β : Type}

/-! ## What is too long -/

/-- All bytes are read if none are left. -/
theorem whole?_eq_some {d : Reader α} {bytes : List UInt8} {a : α} :
    whole? d bytes = some a ↔ d bytes = some (a, []) := by
  rw [whole?]
  constructor
  · intro read
    split at read
    · rename_i found
      rw [found, Option.some.inj read]
    · cases read
  · intro read
    rw [read]

/-- Of items behind their number, the reader takes as many as the lower bytes of the number
say, and leaves the others. -/
theorem counted_mod {width : Nat} {d : Reader α} {pieces : List (List UInt8)} {as : List α}
    (each : List.Forall₂ (Spells d) pieces as) (rest : List UInt8) :
    Reader.counted width d (countedItems width pieces ++ rest)
      = some (as.take (as.length % 256 ^ width),
        (pieces.drop (as.length % 256 ^ width)).flatten ++ rest) := by
  have taken := Spells.times (List.forall₂_take (as.length % 256 ^ width) each)
  rw [List.length_take, Nat.min_eq_left (Nat.mod_le _ _)] at taken
  have read := (Resolved.spells_number_mod width as.length).bind (f := Reader.times d) taken
  have split := congrArg List.flatten (List.take_append_drop (as.length % 256 ^ width) pieces)
  rw [List.flatten_append] at split
  rw [countedItems, each.length_eq, ← split, List.append_assoc, List.append_assoc,
    ← List.append_assoc (be width as.length)]
  exact read _

/-- So it does with bytes behind their number. -/
theorem sized_mod (k : Nat) (data rest : List UInt8) :
    (do Reader.bytes (← Reader.number k)) (be k data.length ++ data ++ rest)
      = some (data.take (data.length % 256 ^ k), data.drop (data.length % 256 ^ k) ++ rest) := by
  have taken := Spells.bytes (data.take (data.length % 256 ^ k))
  rw [List.length_take, Nat.min_eq_left (Nat.mod_le _ _)] at taken
  have read := (Resolved.spells_number_mod k data.length).bind (f := Reader.bytes) taken
  have split : be k data.length ++ data ++ rest = be k data.length
      ++ data.take (data.length % 256 ^ k) ++ (data.drop (data.length % 256 ^ k) ++ rest) := by
    simp only [List.append_assoc]
    rw [← List.append_assoc (data.take _), List.take_append_drop]
  rw [split]
  exact read _

/-- A list is read as a whole just where its count fits. -/
theorem whole_counted_iff {width : Nat} {d : Reader α} {pieces : List (List UInt8)} {as : List α}
    (each : List.Forall₂ (Spells d) pieces as) :
    whole? (Reader.counted width d) (countedItems width pieces) = some as
      ↔ as.length < 256 ^ width := by
  constructor
  · intro read
    have found := whole?_eq_some.mp read
    rw [← List.append_nil (countedItems _ _), counted_mod each] at found
    have same := Option.some.inj found.symm
    have length := congrArg List.length (Prod.mk.inj same).1
    rw [List.length_take, Nat.min_eq_left (Nat.mod_le _ _)] at length
    rw [length]
    exact Nat.mod_lt as.length (Nat.pow_pos (by decide))
  · exact fun few => (Spells.counted each few).whole

/-- What is read is the first step's, then the second one's off what is left. -/
theorem bind_apply (d : Reader α) (f : α → Reader β) (input : List UInt8) :
    (d >>= f) input = (d input).bind fun found => f found.1 found.2 := rfl

/-- Of a text, as many bytes are read as are counted. -/
theorem readConstant_utf8 (s : String) (n : Nat) (counted : n = (Text.ModifiedUtf8.encode s).length % 256 ^ 2) :
    readConstant (Constant.utf8 s).encode
      = match Text.ModifiedUtf8.decode ((Text.ModifiedUtf8.encode s).take n) with
        | .ok t => some (.utf8 t, (Text.ModifiedUtf8.encode s).drop n)
        | .error _ => none := by
  have letter : Reader.number 1 (Constant.utf8 s).encode
      = some (1, be 2 (Text.ModifiedUtf8.encode s).length ++ Text.ModifiedUtf8.encode s) :=
    Resolved.spells_opcode 1 (by decide) _
  have sized := sized_mod 2 (Text.ModifiedUtf8.encode s) []
  rw [List.append_nil, List.append_nil, ← counted] at sized
  rw [readConstant, bind_apply, letter]
  change (Reader.number 2 >>= fun n => Reader.bytes n >>= fun found =>
    match Text.ModifiedUtf8.decode found with
    | .ok t => pure (Constant.utf8 t)
    | .error _ => failure) _ = _
  rw [← bind_assoc, bind_apply, sized, Option.bind_some]
  cases Text.ModifiedUtf8.decode ((Text.ModifiedUtf8.encode s).take n) <;> rfl

/-- A text is read as a constant just where two bytes can count its bytes. -/
theorem whole_utf8_iff (s : String) :
    whole? readConstant (Constant.utf8 s).encode = some (.utf8 s)
      ↔ (Text.ModifiedUtf8.encode s).length < 2 ^ 16 := by
  rw [whole?_eq_some, readConstant_utf8 s _ rfl]
  constructor
  · intro read
    split at read
    · have rest := (Prod.mk.inj (Option.some.inj read)).2
      exact Nat.lt_of_le_of_lt (List.drop_eq_nil_iff.mp rest) (Nat.mod_lt _ (by decide))
    · cases read
  · intro short
    have all : (Text.ModifiedUtf8.encode s).length % 256 ^ 2 = (Text.ModifiedUtf8.encode s).length :=
      Nat.mod_eq_of_lt short
    rw [all, List.take_length, List.drop_length, Text.ModifiedUtf8.decode_encode]

/-! ## What was read -/

/-- All that the reader can read has the property. -/
def Yields (d : Reader α) (P : α → Prop) : Prop :=
  ∀ input a rest, d input = some (a, rest) → P a

namespace Yields

variable {P : α → Prop} {Q : β → Prop}

/-- What two steps yield is what the second does with what the first yields. -/
theorem bind {d : Reader α} {f : α → Reader β} (first : Yields d P)
    (second : ∀ a, P a → Yields (f a) Q) : Yields (d >>= f) Q := by
  intro input b rest h
  rw [bind_apply, Option.bind_eq_some_iff] at h
  obtain ⟨⟨a, middle⟩, read, h⟩ := h
  exact second a (first input a middle read) middle b rest h

/-- A step of which nothing is needed. -/
theorem skip {d : Reader α} {f : α → Reader β} (second : ∀ a, Yields (f a) Q) :
    Yields (d >>= f) Q :=
  bind (P := fun _ => True) (fun _ _ _ _ => trivial) fun a _ => second a

/-- A result yields what holds of it. -/
theorem pure {a : α} (holds : P a) : Yields (Pure.pure a) P := by
  intro input b rest h
  cases h
  exact holds

/-- A failure yields nothing. -/
theorem failure : Yields (Alternative.failure : Reader α) P := by
  intro input a rest h
  cases h

/-- What is found yields what holds of all that can be found. -/
theorem known {a? : Option α} (holds : ∀ a, a? = some a → P a) : Yields (Reader.known a?) P := by
  intro input b rest h
  obtain ⟨a, found, same⟩ := Option.map_eq_some_iff.mp h
  exact (Prod.mk.inj same).1 ▸ holds a found

/-- A number is below a power of 256. -/
theorem number (n : Nat) : Yields (Reader.number n) (· < 256 ^ n) := by
  refine bind (P := fun bytes : List UInt8 => bytes.length = n) (fun input bytes rest h => ?_)
    fun bytes length => pure ?_
  · rw [Reader.bytes] at h
    split at h
    · rename_i enough
      cases h
      rw [List.length_take, Nat.min_eq_left enough]
    · cases h
  · rw [← length, ← List.length_reverse]
    exact ofLe_lt _

/-- As many results are read as were asked for, and each is what one of them is. -/
theorem times {d : Reader α} (each : Yields d P) (n : Nat) :
    Yields (Reader.times d n) fun as => as.length = n ∧ ∀ a ∈ as, P a := by
  induction n with
  | zero => exact pure ⟨rfl, fun _ mem => absurd mem List.not_mem_nil⟩
  | succ n ih =>
    refine each.bind fun a holds => ih.bind fun as ⟨length, rest⟩ => pure ⟨?_, ?_⟩
    · rw [List.length_cons, length]
    · exact List.forall_mem_cons.mpr ⟨holds, rest⟩

/-- A list that was read behind its number is no longer than the number can say. -/
theorem counted {d : Reader α} (each : Yields d P) (width : Nat) :
    Yields (Reader.counted width d) fun as => as.length < 256 ^ width ∧ ∀ a ∈ as, P a := by
  refine (number width).bind fun n small => ?_
  intro input as rest h
  obtain ⟨length, holds⟩ := each.times n input as rest h
  exact ⟨length ▸ small, holds⟩

/-- What is read from all of the bytes is what the reader yields. -/
theorem whole {d : Reader α} (each : Yields d P) {bytes : List UInt8} {a : α}
    (h : whole? d bytes = some a) : P a := each bytes a [] (whole?_eq_some.mp h)

end Yields

end StubJar.ClassFile.Grammar

namespace StubJar.ClassFile.Resolved

open StubJar.ClassFile.Grammar (Reader Yields text? className? readSlot readConstants
  readSuperclass whole?)

/-! ## What was counted -/

section Counted

variable (cs : List Constant)

/-- A named element has a countable value, if values are. -/
theorem yields_readNamed {d : Reader ElementValue} (each : Yields d fun v => v.isCountable = true) :
    Yields (readNamed cs d) fun e => e.2.isCountable = true :=
  Yields.skip fun _ => each.bind fun _ holds => Yields.pure holds

/-- So has a value behind its letter. -/
theorem yields_readTagged {d : Reader ElementValue} (each : Yields d fun v => v.isCountable = true)
    (tag : Nat) : Yields (readTagged cs d tag) fun v => v.isCountable = true := by
  unfold readTagged
  split
  · exact Yields.skip fun _ => Yields.skip fun _ => Yields.pure rfl
  · exact Yields.skip fun _ => Yields.pure rfl
  · refine Yields.skip fun _ => ((yields_readNamed cs each).counted 2).bind fun es counted =>
      Yields.pure ?_
    rw [ElementValue.isCountable, Bool.and_eq_true]
    exact ⟨decide_eq_true counted.1, ElementValue.elementsCountable_iff.mpr counted.2⟩
  · refine (each.counted 2).bind fun vs counted => Yields.pure ?_
    rw [ElementValue.isCountable, Bool.and_eq_true]
    exact ⟨decide_eq_true counted.1, ElementValue.itemsCountable_iff.mpr counted.2⟩
  · exact Yields.skip fun _ => Yields.pure rfl

/-- Every value that is read is countable. -/
theorem yields_readElement (depth : Nat) :
    Yields (readElement cs depth) fun v => v.isCountable = true := by
  induction depth with
  | zero => exact Yields.failure
  | succ depth ih => exact Yields.skip fun tag => yields_readTagged cs ih tag

theorem yields_annotations (depth : Nat) :
    Yields (Reader.counted 2 (readAnnotationForm cs depth)) fun list => areCountable list = true := by
  have each : Yields (readAnnotationForm cs depth) fun a => a.isCountable = true := by
    refine Yields.skip fun _ => ((yields_readNamed cs (yields_readElement cs depth)).counted 2).bind
      fun es counted => Yields.pure ?_
    unfold Annotation.isCountable
    rw [Bool.and_eq_true]
    exact ⟨decide_eq_true counted.1, ElementValue.elementsCountable_iff.mpr counted.2⟩
  intro input list rest h
  obtain ⟨few, holds⟩ := each.counted 2 input list rest h
  rw [areCountable, Bool.and_eq_true]
  exact ⟨decide_eq_true few, List.all_eq_true.mpr holds⟩

/-- The contents of an attribute are countable. -/
theorem yields_readContents (size : Nat) (name : String) :
    Yields (readContents cs size name) fun a => a.isCountable = true := by
  have sets : Yields (Reader.counted 1 (Reader.counted 2 (readAnnotationForm cs size)))
      fun parameters => (parameters.length < 2 ^ 8 && parameters.all areCountable) = true := by
    intro input parameters rest h
    obtain ⟨few, holds⟩ := (yields_annotations cs size).counted 1 input parameters rest h
    rw [Bool.and_eq_true]
    exact ⟨decide_eq_true few, List.all_eq_true.mpr holds⟩
  have classes : Yields (Reader.counted 2 (readSlot (className? cs)))
      fun names => names.length < 2 ^ 16 := by
    intro input names rest h
    exact ((Yields.counted (P := fun _ => True) (fun _ _ _ _ => trivial) 2) input names rest h).1
  unfold readContents
  split
  case h_5 => exact classes.bind fun names few => Yields.pure (decide_eq_true few)
  case h_6 | h_7 =>
    exact (yields_annotations cs size).bind fun list holds => Yields.pure holds
  case h_8 | h_9 => exact sets.bind fun parameters holds => Yields.pure holds
  all_goals exact Yields.skip fun _ => Yields.pure rfl

theorem yields_readAttribute : Yields (readAttribute cs) fun a => a.isCountable = true :=
  Yields.skip fun name => Yields.skip fun _ => Yields.skip fun info =>
    Yields.known fun _ read => (yields_readContents cs info.length name).whole read

theorem yields_readMember : Yields (readMember cs) fun m => m.isCountable = true :=
  Yields.skip fun _ => Yields.skip fun _ => Yields.skip fun _ =>
    ((yields_readAttribute cs).counted 2).bind fun _ ⟨_, holds⟩ =>
      Yields.pure (List.all_eq_true.mpr holds)

end Counted

/-- The lists of a class that was read can be counted. -/
theorem countable_of_read {bytes : List UInt8} {k : Class} (h : read bytes = some k) :
    k.Countable := by
  refine Yields.whole ?_ h
  refine Yields.skip fun _ => Yields.skip fun _ => Yields.skip fun _ => Yields.skip fun _ =>
    Yields.skip fun _ => Yields.skip fun cs => Yields.skip fun _ => Yields.skip fun _ =>
    Yields.skip fun _ => Yields.skip fun _ => ?_
  refine Yields.bind (Yields.counted (P := fun _ => True) (fun _ _ _ _ => trivial) 2)
    fun interfaces few => ?_
  refine ((yields_readMember cs).counted 2).bind fun fields ofFields => ?_
  refine ((yields_readMember cs).counted 2).bind fun methods ofMethods => ?_
  exact ((yields_readAttribute cs).counted 2).bind fun attributes ofClass =>
    Yields.pure ⟨few.1, ofFields, ofMethods, ofClass⟩

end StubJar.ClassFile.Resolved
