import StubJar.Proofs.Container.Values
import StubJar.Proofs.Container.Yields

/-!
# Values read in every size

The bytes of a value may be more than it needs. Reading takes every size up to the width of
the kind and extends the bytes (`decodeValue_eq_ok`): those of a signed number by its sign,
those of a character or an index by zeros at the high end, those of a floating-point number
by zeros at the low end.

A property that what bytes mean has, and that lists and annotations have if their values
have it, is one of everything that is read (`Inherited.value`).
-/

namespace StubJar.Container

open StubJar.Bytes StubJar.Dalvik

/-! ## Bytes extended -/

/-- The signed number that bytes spell. -/
def bySign (bytes : List UInt8) : Int := Int.bmod (ofLe bytes) (256 ^ bytes.length)

/-- The number that bytes spell at the high end of a width, behind zeros. -/
def behindZeros (width : Nat) (bytes : List UInt8) : Nat :=
  ofLe (List.replicate (width - bytes.length) 0 ++ bytes)

/-- The kind under which a value is written. -/
def kindOf : Value → ValueKind
  | .byte _ => .byte
  | .short _ => .short
  | .char _ => .char
  | .int _ => .int
  | .long _ => .long
  | .float _ => .float
  | .double _ => .double
  | .methodType _ => .methodType
  | .methodHandle _ => .methodHandle
  | .string _ => .string
  | .type _ => .type
  | .field _ => .field
  | .method _ => .method
  | .enum _ => .enum
  | .array _ => .array
  | .nested _ _ => .nested
  | .null => .null
  | .boolean _ => .boolean

/-- The bytes, extended as the kind of the value demands, say the value. The tables say
what an index stands for. -/
def Means (t : Tables) (bytes : List UInt8) : Value → Prop
  | .byte v => v.toInt = bySign bytes
  | .short v => v.toInt = bySign bytes
  | .char u => u.toNat = ofLe bytes
  | .int v => v.toInt = bySign bytes
  | .long v => v.toInt = bySign bytes
  | .float bits => bits.toNat = behindZeros 4 bytes
  | .double bits => bits.toNat = behindZeros 8 bytes
  | .methodType q => t.prototypes[ofLe bytes]? = some q
  | .methodHandle h => t.handles[ofLe bytes]? = some h
  | .string s => t.strings[ofLe bytes]? = some s
  | .type d => t.types[ofLe bytes]? = some d
  | .field f => t.fields[ofLe bytes]? = some f
  | .method m => t.methods[ofLe bytes]? = some m
  | .enum f => t.fields[ofLe bytes]? = some f
  | .array _ | .nested _ _ | .null | .boolean _ => False

/-- Bytes behind zeros are those bytes times a power of 256. -/
theorem behindZeros_eq (width : Nat) (bytes : List UInt8) :
    behindZeros width bytes = ofLe bytes * 256 ^ (width - bytes.length) := by
  rw [behindZeros, ofLe_append, ofLe_zeros, List.length_replicate, Nat.zero_add]

section Ranges

variable {bytes : List UInt8} {width : Nat}

/-- Fewer bytes make no greater numbers. -/
theorem ofLe_lt_of_le (short : bytes.length ≤ width) : ofLe bytes < 256 ^ width :=
  Nat.lt_of_lt_of_le (ofLe_lt bytes) (Nat.pow_le_pow_right (by decide) short)

/-- Neither do zeros in front of them. -/
theorem behindZeros_lt (short : bytes.length ≤ width) : behindZeros width bytes < 256 ^ width := by
  have bound := ofLe_lt (List.replicate (width - bytes.length) 0 ++ bytes)
  rwa [List.length_append, List.length_replicate, Nat.sub_add_cancel short] at bound

/-- A signed number has no more bits than its bytes. -/
theorem bySign_range (short : bytes.length ≤ width) :
    -((256 ^ width : Nat) : Int) ≤ 2 * bySign bytes
      ∧ 2 * bySign bytes < ((256 ^ width : Nat) : Int) := by
  have positive : 0 < 256 ^ bytes.length := Nat.pow_pos (by decide)
  have powers : 256 ^ bytes.length ≤ 256 ^ width := Nat.pow_le_pow_right (by decide) short
  have low := Int.le_bmod (x := ofLe bytes) positive
  have high := Int.bmod_lt (x := ofLe bytes) positive
  rw [bySign]
  omega

end Ranges

/-! ## Reading every size -/

section Reading

variable {α β : Type} {input rest : List UInt8} {kind : ValueKind} {arg : Nat}

/-- Bytes are split off if there are as many. -/
theorem split?_eq_some {n : Nat} {front : List UInt8} :
    split? n input = some (front, rest) ↔ front.length = n ∧ input = front ++ rest := by
  induction n generalizing input front with
  | zero =>
    rw [split?, Option.some.injEq, Prod.mk.injEq, List.length_eq_zero_iff]
    constructor
    · rintro ⟨rfl, rfl⟩
      exact ⟨rfl, rfl⟩
    · rintro ⟨rfl, rfl⟩
      exact ⟨rfl, rfl⟩
  | succ n ih =>
    cases input with
    | nil =>
      constructor
      · intro h
        cases h
      · intro h
        rw [(List.append_eq_nil_iff.mp h.2.symm).1] at h
        cases h.1
    | cons b input =>
      rw [split?, Option.map_eq_some_iff]
      constructor
      · rintro ⟨⟨back, rest'⟩, found, same⟩
        cases same
        obtain ⟨length, rfl⟩ := ih.mp found
        exact ⟨congrArg (· + 1) length, rfl⟩
      · rintro ⟨length, pieces⟩
        cases front with
        | nil => cases length
        | cons c front =>
          rw [List.cons_append, List.cons.injEq] at pieces
          obtain ⟨rfl, rfl⟩ := pieces
          exact ⟨(front, rest), ih.mpr ⟨Nat.succ.inj length, rfl⟩, rfl⟩

/-- The input begins with the bytes of a value: as many as the first byte says, and no more
than the kind allows. -/
structure Payload (kind : ValueKind) (arg : Nat) (input bytes rest : List UInt8) : Prop where
  pieces : input = bytes ++ rest
  length : bytes.length = arg + 1
  fits : bytes.length ≤ kind.maxSize

/-- A payload is read as the number that its bytes make. -/
theorem payload_eq_ok {n : Nat} : payload kind arg input = .ok (n, rest) ↔
    ∃ bytes, Payload kind arg input bytes rest ∧ ofLe bytes = n := by
  rw [payload]
  split
  · rename_i wide
    constructor
    · intro h
      cases h
    · rintro ⟨bytes, ⟨_, length, fits⟩, _⟩
      omega
  · rename_i narrow
    constructor
    · intro h
      obtain ⟨⟨bytes, rest'⟩, read, same⟩ := bind_eq_ok.mp h
      cases same
      rw [Decoder.bytes] at read
      split at read
      · rename_i found
        cases read
        obtain ⟨length, pieces⟩ := split?_eq_some.mp found
        exact ⟨bytes, ⟨pieces, length, by omega⟩, rfl⟩
      · cases read
    · rintro ⟨bytes, ⟨pieces, length, _⟩, rfl⟩
      rw [pieces, ← length]
      exact (Reads.bytes bytes).map ofLe rest

/-- What is made of something that is read. -/
theorem map_decoder_eq_ok {d : Decoder α} {f : α → β} {b : β} :
    (do return f (← d) : Decoder β) input = .ok (b, rest) ↔
      ∃ a, d input = .ok (a, rest) ∧ f a = b := by
  constructor
  · intro h
    obtain ⟨⟨a, rest'⟩, read, same⟩ := bind_eq_ok.mp h
    cases same
    exact ⟨a, read, rfl⟩
  · rintro ⟨a, read, rfl⟩
    exact bind_eq_ok.mpr ⟨(a, rest), read, rfl⟩

/-- With a sign, a payload is read as the number that its bytes make with one. -/
theorem signedPayload_eq_ok {n : Int} : signedPayload kind arg input = .ok (n, rest) ↔
    ∃ bytes, Payload kind arg input bytes rest ∧ bySign bytes = n := by
  rw [signedPayload, map_decoder_eq_ok]
  constructor
  · rintro ⟨_, read, rfl⟩
    obtain ⟨bytes, behind, rfl⟩ := payload_eq_ok.mp read
    exact ⟨bytes, behind, by rw [bySign, behind.length]; rfl⟩
  · rintro ⟨bytes, behind, rfl⟩
    exact ⟨ofLe bytes, payload_eq_ok.mpr ⟨bytes, behind, rfl⟩, by rw [bySign, behind.length]; rfl⟩

/-- Without its low bytes, it is the number that they make behind zeros. -/
theorem highPayload_eq_ok {n : Nat} : highPayload kind arg input = .ok (n, rest) ↔
    ∃ bytes, Payload kind arg input bytes rest ∧ behindZeros kind.maxSize bytes = n := by
  rw [highPayload, map_decoder_eq_ok]
  constructor
  · rintro ⟨_, read, rfl⟩
    obtain ⟨bytes, behind, rfl⟩ := payload_eq_ok.mp read
    exact ⟨bytes, behind, by rw [behindZeros_eq, behind.length]; rfl⟩
  · rintro ⟨bytes, behind, rfl⟩
    exact ⟨ofLe bytes, payload_eq_ok.mpr ⟨bytes, behind, rfl⟩,
      by rw [behindZeros_eq, behind.length]; rfl⟩

section Kinds

variable {t : Tables} {v : Value} {make : α → Value}

/-- A number that fits its type is the one that the bytes say. -/
theorem made_eq_ok {d : Decoder β} {of : β → α} {number : α → β} {said : List UInt8 → β}
    (read : ∀ {b}, d input = .ok (b, rest) ↔
      ∃ bytes, Payload kind arg input bytes rest ∧ said bytes = b)
    (inverse : ∀ a, of (number a) = a)
    (fits : ∀ bytes, bytes.length ≤ kind.maxSize → number (of (said bytes)) = said bytes)
    (meaning : ∀ bytes a, Means t bytes (make a) ↔ number a = said bytes)
    (kinds : ∀ v, kindOf v = kind ↔ ∃ a, make a = v) :
    (do return make (of (← d)) : Decoder Value) input = .ok (v, rest) ↔
      kindOf v = kind ∧ ∃ bytes, Payload kind arg input bytes rest ∧ Means t bytes v := by
  rw [map_decoder_eq_ok, kinds]
  constructor
  · rintro ⟨_, found, rfl⟩
    obtain ⟨bytes, behind, rfl⟩ := read.mp found
    exact ⟨⟨_, rfl⟩, bytes, behind, (meaning _ _).mpr (fits bytes behind.fits)⟩
  · rintro ⟨⟨a, rfl⟩, bytes, behind, said⟩
    exact ⟨_, read.mpr ⟨bytes, behind, rfl⟩, by rw [← (meaning _ _).mp said, inverse]⟩

/-- An index stands for what the table has in its row. -/
theorem found_eq_ok {table : TableName} {items : Array α}
    (meaning : ∀ bytes a, Means t bytes (make a) ↔ items[ofLe bytes]? = some a)
    (kinds : ∀ v, kindOf v = kind ↔ ∃ a, make a = v) :
    (do return make (← entry table items (← payload kind arg)) : Decoder Value) input
        = .ok (v, rest) ↔
      kindOf v = kind ∧ ∃ bytes, Payload kind arg input bytes rest ∧ Means t bytes v := by
  rw [kinds]
  constructor
  · intro h
    obtain ⟨⟨n, middle⟩, read, h⟩ := bind_eq_ok.mp h
    obtain ⟨a, found, rfl⟩ := map_decoder_eq_ok.mp h
    obtain ⟨bytes, behind, rfl⟩ := payload_eq_ok.mp read
    obtain ⟨a', stands, same⟩ := bind_eq_ok.mp found
    cases same
    exact ⟨⟨a, rfl⟩, bytes, behind, (meaning _ _).mpr (entry_eq_ok.mp stands)⟩
  · rintro ⟨⟨a, rfl⟩, bytes, behind, said⟩
    have stands : entry table items (ofLe bytes) = .ok a := entry_eq_ok.mpr ((meaning _ _).mp said)
    exact bind_eq_ok.mpr ⟨(_, rest), payload_eq_ok.mpr ⟨bytes, behind, rfl⟩,
      map_decoder_eq_ok.mpr ⟨a, bind_eq_ok.mpr ⟨a, stands, rfl⟩, rfl⟩⟩

/-- A value of a kind with bytes behind the first is read off them in any size, up to the
width of the kind. -/
theorem valueBody_eq_ok {depth : Nat} (sized : 0 < kind.maxSize) :
    valueBody t depth arg kind input = .ok (v, rest) ↔
      kindOf v = kind ∧ ∃ bytes, Payload kind arg input bytes rest ∧ Means t bytes v := by
  cases kind with
  | byte =>
    refine made_eq_ok signedPayload_eq_ok Int8.ofInt_toInt (fun bytes short => ?_)
      (fun _ _ => Iff.rfl) fun v => by cases v <;> simp [kindOf]
    have range := bySign_range (show bytes.length ≤ 1 from short)
    exact Int8.toInt_ofInt_of_le (by omega) (by omega)
  | short =>
    refine made_eq_ok signedPayload_eq_ok Int16.ofInt_toInt (fun bytes short => ?_)
      (fun _ _ => Iff.rfl) fun v => by cases v <;> simp [kindOf]
    have range := bySign_range (show bytes.length ≤ 2 from short)
    exact Int16.toInt_ofInt_of_le (by omega) (by omega)
  | char =>
    refine made_eq_ok payload_eq_ok (fun _ => UInt16.ofNat_toNat) (fun bytes short => ?_)
      (fun _ _ => Iff.rfl) fun v => by cases v <;> simp [kindOf]
    exact UInt16.toNat_ofNat_of_lt (ofLe_lt_of_le short)
  | int =>
    refine made_eq_ok signedPayload_eq_ok Int32.ofInt_toInt (fun bytes short => ?_)
      (fun _ _ => Iff.rfl) fun v => by cases v <;> simp [kindOf]
    have range := bySign_range (show bytes.length ≤ 4 from short)
    exact Int32.toInt_ofInt_of_le (by omega) (by omega)
  | long =>
    refine made_eq_ok signedPayload_eq_ok Int64.ofInt_toInt (fun bytes short => ?_)
      (fun _ _ => Iff.rfl) fun v => by cases v <;> simp [kindOf]
    have range := bySign_range (show bytes.length ≤ 8 from short)
    exact Int64.toInt_ofInt_of_le (by omega) (by omega)
  | float =>
    refine made_eq_ok highPayload_eq_ok (fun _ => UInt32.ofNat_toNat) (fun bytes short => ?_)
      (fun _ _ => Iff.rfl) fun v => by cases v <;> simp [kindOf]
    exact UInt32.toNat_ofNat_of_lt (behindZeros_lt short)
  | double =>
    refine made_eq_ok highPayload_eq_ok (fun _ => UInt64.ofNat_toNat) (fun bytes short => ?_)
      (fun _ _ => Iff.rfl) fun v => by cases v <;> simp [kindOf]
    exact UInt64.toNat_ofNat_of_lt (behindZeros_lt short)
  | methodType | methodHandle | string | type | field | method | enum =>
    exact found_eq_ok (fun _ _ => Iff.rfl) fun v => by cases v <;> simp [kindOf]
  | array | nested | null | boolean => exact absurd sized (Nat.lt_irrefl 0)

/-- What is read first is passed on. -/
theorem decoder_bind_of_ok {d : Decoder α} {f : α → Decoder β} {a : α}
    (read : d input = .ok (a, rest)) : (d >>= f) input = f a rest := by
  change (d input >>= fun found => f found.1 found.2) = _
  rw [read]
  rfl

/-- The first byte says the kind of the value and, where there are more, how many. -/
theorem decodeValue_cons (t : Tables) (depth : Nat) (lead : UInt8) (tail : List UInt8) :
    decodeValue t (depth + 1) (lead :: tail) =
      match ValueKind.ofCode? (lead.toNat % 0x20) with
      | none => .error (.malformedValue (lead.toNat % 0x20) (lead.toNat / 0x20))
      | some kind => valueBody t depth (lead.toNat / 0x20) kind tail := by
  have first : Decoder.number 1 (lead :: tail) = .ok (lead.toNat, tail) :=
    (Reads.bytes [lead]).map ofLe tail
  rw [decodeValue_succ, decoder_bind_of_ok first]
  cases ValueKind.ofCode? (lead.toNat % 0x20) <;> rfl

/-- Behind a first byte of a kind with more bytes stand as many of them as it says, and the
value that is read is the one that they mean. -/
theorem decodeValue_eq_ok {depth : Nat} {lead : UInt8} {tail : List UInt8}
    (tag : lead.toNat % 0x20 = kind.code) (sized : 0 < kind.maxSize) :
    decodeValue t (depth + 1) (lead :: tail) = .ok (v, rest) ↔ kindOf v = kind ∧
      ∃ bytes, Payload kind (lead.toNat / 0x20) tail bytes rest ∧ Means t bytes v := by
  rw [decodeValue_cons, tag, ofCode?_code]
  exact valueBody_eq_ok sized

/-- A value that is read has the kind of its first byte. -/
theorem yields_kindOf (t : Tables) (depth arg : Nat) (kind : ValueKind) :
    Yields (valueBody t depth arg kind) fun v => kindOf v = kind := by
  cases kind with
  | methodType | methodHandle | string | type | field | method | enum | array | nested =>
    exact Yields.skip fun _ => Yields.skip fun _ => Yields.pure rfl
  | _ => exact Yields.skip fun _ => Yields.pure rfl

/-- A value of such a kind was read off bytes that mean it. -/
theorem means_of_decode {depth : Nat} (read : decodeValue t depth input = .ok (v, rest))
    (sized : 0 < (kindOf v).maxSize) : ∃ lead bytes, input = lead :: (bytes ++ rest)
      ∧ bytes ≠ [] ∧ bytes.length ≤ (kindOf v).maxSize ∧ Means t bytes v := by
  cases depth with
  | zero => cases read
  | succ depth =>
    cases input with
    | nil =>
      rw [decodeValue_succ] at read
      cases read
    | cons lead tail =>
      rw [decodeValue_cons] at read
      split at read
      · cases read
      · rename_i kind _
        obtain rfl := yields_kindOf t depth _ kind tail v rest read
        obtain ⟨_, bytes, ⟨rfl, length, fits⟩, means⟩ := (valueBody_eq_ok sized).mp read
        exact ⟨lead, bytes, rfl, List.length_pos_iff.mp (by omega), fits, means⟩

end Kinds

end Reading

/-! ## What every value has that is read -/

/-- What bytes mean has the property, and what is made of values inherits it from them. -/
structure Inherited (t : Tables) (P : Value → Prop) : Prop where
  means : ∀ {bytes v}, Means t bytes v → P v
  null : P .null
  boolean : ∀ b, P (.boolean b)
  array : ∀ {vs : List Value}, vs.length < 2 ^ 32 → (∀ v ∈ vs, P v) → P (.array vs)
  nested : ∀ {d} {elements : List (String × Value)}, d ∈ t.types → elements.length < 2 ^ 32 →
    (∀ e ∈ elements, e.1 ∈ t.strings ∧ P e.2) → P (.nested d elements)

namespace Inherited

variable {t : Tables} {P : Value → Prop} (h : Inherited t P)

include h

/-- An annotation inside another is what its elements make it. -/
theorem parts {value : Decoder Value} (each : Yields value P) :
    Yields (annotationParts t value) fun x => P (.nested x.1 x.2) := by
  have element : Yields (do
      let name ← Decoder.uleb
      let name ← t.string name
      return (name, ← value)) fun e => e.1 ∈ t.strings ∧ P e.2 :=
    Yields.skip fun _ => Yields.lift_bind fun s found => each.bind fun v holds =>
      Yields.pure ⟨Array.mem_of_getElem? (entry_eq_ok.mp found), holds⟩
  refine Yields.skip fun _ => Yields.uleb.bind fun size few => Yields.lift_bind fun d found => ?_
  refine ((Yields.times element size).and (Yields.length_times _ size)).bind
    fun elements read => Yields.pure ?_
  exact h.nested (Array.mem_of_getElem? (entry_eq_ok.mp found)) (by rw [read.2]; exact few) read.1

/-- Every value that is read is what its parts make it. -/
theorem value (depth : Nat) : Yields (decodeValue t depth) P := by
  induction depth with
  | zero => exact Yields.throw
  | succ depth ih =>
    rw [decodeValue_succ]
    refine Yields.skip fun lead => ?_
    split
    · exact Yields.throw
    · rename_i kind _
      by_cases sized : 0 < kind.maxSize
      · intro input v rest read
        obtain ⟨_, bytes, _, means⟩ := (valueBody_eq_ok sized).mp read
        exact h.means means
      · cases kind with
        | array =>
          have items := (Yields.countedList ih).and (Yields.length_countedList _)
          exact Yields.skip fun _ => items.bind fun vs read => Yields.pure (h.array read.2 read.1)
        | nested =>
          exact Yields.skip fun _ => (h.parts ih).bind fun x holds => Yields.pure holds
        | null => exact Yields.skip fun _ => Yields.pure h.null
        | boolean => exact Yields.skip fun _ => Yields.pure (h.boolean _)
        | _ => exact absurd (by decide) sized

end Inherited

end StubJar.Container
