import StubJar.Container.ValueForm
import StubJar.Proofs.Container.Positions
import StubJar.Proofs.Container.Reads

/-!
# Values read back

A value is read back in its normal form (`reads_value`): what it is made of is
kept, and the elements of the annotations inside it come back in the order of
their names. The number of bytes that a value is written with is the least that
holds it, hence never more than its kind allows.
-/

namespace StubJar.Container

open StubJar.Bytes StubJar.Dalvik StubJar.Order StubJar.Text

/-! ## Numbers in the fewest bytes -/

/-- The size that is found is one of those that are tried. -/
theorem unsignedSize_range (n k size : Nat) :
    size ≤ unsignedSize n k size ∧ unsignedSize n k size ≤ size + k := by
  induction k generalizing size with
  | zero => exact ⟨Nat.le_refl size, Nat.le_refl size⟩
  | succ k ih =>
    have next := ih (size + 1)
    rw [unsignedSize]
    split <;> omega

/-- The number fits it. -/
theorem unsignedSize_fits {n k size : Nat} (fits : n < 256 ^ (size + k)) :
    n < 256 ^ unsignedSize n k size := by
  induction k generalizing size with
  | zero => exact fits
  | succ k ih =>
    rw [unsignedSize]
    split
    · assumption
    · exact ih (by rwa [Nat.add_right_comm])

/-- It fits none that is smaller. -/
theorem unsignedSize_le {n k size s : Nat} (fits : n < 256 ^ s) (above : size ≤ s)
    (below : s ≤ size + k) : unsignedSize n k size ≤ s := by
  induction k generalizing size with
  | zero => exact above
  | succ k ih =>
    rw [unsignedSize]
    split
    · exact above
    · rename_i more
      have differ : size ≠ s := fun same => more (same ▸ fits)
      exact ih (by omega) (by omega)

/-- The size that is found for a number with a sign is one of those that are tried. -/
theorem signedSize_range (v : Int) (k size : Nat) :
    size ≤ signedSize v k size ∧ signedSize v k size ≤ size + k := by
  induction k generalizing size with
  | zero => exact ⟨Nat.le_refl size, Nat.le_refl size⟩
  | succ k ih =>
    have next := ih (size + 1)
    rw [signedSize]
    split <;> omega

/-- The number fits it with its sign. -/
theorem signedSize_fits {v : Int} {k size : Nat} (fits : Int.bmod v (256 ^ (size + k)) = v) :
    Int.bmod v (256 ^ signedSize v k size) = v := by
  induction k generalizing size with
  | zero => exact fits
  | succ k ih =>
    rw [signedSize]
    split
    · assumption
    · exact ih (by rwa [Nat.add_right_comm])

/-- It fits none that is smaller. -/
theorem signedSize_le {v : Int} {k size s : Nat} (fits : Int.bmod v (256 ^ s) = v)
    (above : size ≤ s) (below : s ≤ size + k) : signedSize v k size ≤ s := by
  induction k generalizing size with
  | zero => exact above
  | succ k ih =>
    rw [signedSize]
    split
    · exact above
    · rename_i more
      have differ : size ≠ s := fun same => more (same ▸ fits)
      exact ih (by omega) (by omega)

/-- The shortest form has one to eight bytes. -/
theorem length_shortestUnsigned (n : Nat) :
    0 < (shortestUnsigned n).length ∧ (shortestUnsigned n).length ≤ 8 := by
  have range := unsignedSize_range n 7 1
  rw [shortestUnsigned, length_le]
  omega

theorem length_shortestSigned (v : Int) :
    0 < (shortestSigned v).length ∧ (shortestSigned v).length ≤ 8 := by
  have range := signedSize_range v 7 1
  rw [shortestSigned, length_le]
  omega

/-- Without low zeros, the bytes stand for the same number behind zeros. -/
theorem dropLowZeros_spec (bytes : List UInt8) (some : bytes ≠ []) :
    dropLowZeros bytes ≠ [] ∧ (dropLowZeros bytes).length ≤ bytes.length
      ∧ ofLe (dropLowZeros bytes) * 256 ^ (bytes.length - (dropLowZeros bytes).length)
        = ofLe bytes := by
  induction bytes with
  | nil => exact absurd rfl some
  | cons b bytes ih =>
    cases bytes with
    | nil => simp [dropLowZeros]
    | cons c bytes =>
      rw [dropLowZeros]
      · split
        · rename_i zero
          obtain ⟨nonempty, shorter, sum⟩ := ih (by simp)
          refine ⟨nonempty, by rw [List.length_cons]; omega, ?_⟩
          have gap : (b :: c :: bytes).length - (dropLowZeros (c :: bytes)).length
              = ((c :: bytes).length - (dropLowZeros (c :: bytes)).length) + 1 := by
            rw [List.length_cons]
            omega
          rw [gap, Nat.pow_succ, ← Nat.mul_assoc, sum, zero]
          simp [ofLe, Nat.mul_comm]
        · simp
      · simp

/-- There are one to eight of them. -/
theorem length_dropLowZeros {bytes : List UInt8} (some : bytes ≠ []) (short : bytes.length ≤ 8) :
    0 < (dropLowZeros bytes).length ∧ (dropLowZeros bytes).length ≤ 8 := by
  obtain ⟨nonempty, shorter, _⟩ := dropLowZeros_spec bytes some
  exact ⟨List.length_pos_iff.mpr nonempty, by omega⟩

/-! ## Payloads -/

namespace Reads

/-- Bytes that fit a kind are read as their number. -/
theorem payload (kind : ValueKind) {bytes : List UInt8} (some : 0 < bytes.length)
    (short : bytes.length ≤ kind.maxSize) :
    Reads (Container.payload kind (bytes.length - 1)) bytes (ofLe bytes) := by
  have size : bytes.length - 1 + 1 = bytes.length := by omega
  rw [Container.payload, size, if_neg (by omega)]
  exact (Reads.bytes bytes).map ofLe

/-- A number is read from its shortest form. -/
theorem unsigned (kind : ValueKind) {n : Nat} (fits : n < 256 ^ kind.maxSize)
    (some : 1 ≤ kind.maxSize) (small : kind.maxSize ≤ 8) :
    Reads (Container.payload kind ((shortestUnsigned n).length - 1)) (shortestUnsigned n) n := by
  have most : n < 256 ^ (1 + 7) := Nat.lt_of_lt_of_le fits (Nat.pow_le_pow_right (by omega) small)
  have bound := unsignedSize_le fits some (by omega : kind.maxSize ≤ 1 + 7)
  have number : ofLe (shortestUnsigned n) = n := ofLe_le (unsignedSize_fits most)
  have read := payload kind (length_shortestUnsigned n).1
    (by rwa [shortestUnsigned, length_le])
  rwa [number] at read

theorem signed (kind : ValueKind) {v : Int} (fits : Int.bmod v (256 ^ kind.maxSize) = v)
    (most : Int.bmod v (256 ^ (1 + 7)) = v) (some : 1 ≤ kind.maxSize) (small : kind.maxSize ≤ 8) :
    Reads (signedPayload kind ((shortestSigned v).length - 1)) (shortestSigned v) v := by
  have bound := signedSize_le fits some (by omega : kind.maxSize ≤ 1 + 7)
  have length : (shortestSigned v).length = signedSize v 7 1 := length_le _ _
  have number : (ofLe (shortestSigned v) : Int) = v % 256 ^ signedSize v 7 1 := by
    have cast : ((256 ^ signedSize v 7 1 : Nat) : Int) = 256 ^ signedSize v 7 1 := by simp
    have positive : (0 : Int) < 256 ^ signedSize v 7 1 := Int.pow_pos (by omega)
    have low := Int.emod_nonneg v (Int.ne_of_gt positive)
    have high := Int.emod_lt_of_pos v positive
    have natural : (v % 256 ^ signedSize v 7 1).toNat < 256 ^ signedSize v 7 1 := by omega
    rw [shortestSigned, Nat.pow_eq, cast, ofLe_le natural]
    omega
  have extended : Int.bmod (ofLe (shortestSigned v)) (256 ^ ((shortestSigned v).length - 1 + 1))
      = v := by
    have emod := Int.emod_bmod v (256 ^ signedSize v 7 1)
    rw [Int.natCast_pow] at emod
    have positive := (length_shortestSigned v).1
    rw [show (shortestSigned v).length - 1 + 1 = signedSize v 7 1 by omega, number]
    exact emod.trans (signedSize_fits most)
  have read := (payload kind (length_shortestSigned v).1 (by rwa [length])).map
    (fun n : Nat => Int.bmod n (256 ^ ((shortestSigned v).length - 1 + 1)))
  rwa [extended] at read

/-- So is one whose low bytes are left out. -/
theorem high (kind : ValueKind) {bytes : List UInt8} (some : bytes ≠ [])
    (size : bytes.length = kind.maxSize) :
    Reads (highPayload kind ((dropLowZeros bytes).length - 1)) (dropLowZeros bytes)
      (ofLe bytes) := by
  obtain ⟨nonempty, shorter, sum⟩ := dropLowZeros_spec bytes some
  have positive := List.length_pos_iff.mpr nonempty
  have number : ofLe (dropLowZeros bytes)
      * 256 ^ (kind.maxSize - ((dropLowZeros bytes).length - 1 + 1)) = ofLe bytes := by
    rw [show kind.maxSize - ((dropLowZeros bytes).length - 1 + 1)
      = bytes.length - (dropLowZeros bytes).length by omega, sum]
  have read := (payload kind positive (by omega)).map
    (· * 256 ^ (kind.maxSize - ((dropLowZeros bytes).length - 1 + 1)))
  rwa [number] at read

end Reads

/-! ## The first byte -/

/-- The kind of a value is known by its code. -/
theorem ofCode?_code (kind : ValueKind) : ValueKind.ofCode? kind.code = some kind := by
  cases kind <;> rfl

theorem code_lt (kind : ValueKind) : kind.code < 0x20 := by
  cases kind <;> decide

/-- What follows the first byte of a value of some kind. -/
def valueBody (t : Tables) (depth arg : Nat) : ValueKind → Decoder Value
  | .byte => return .byte (Int8.ofInt (← signedPayload .byte arg))
  | .short => return .short (Int16.ofInt (← signedPayload .short arg))
  | .char => return .char (UInt16.ofNat (← payload .char arg))
  | .int => return .int (Int32.ofInt (← signedPayload .int arg))
  | .long => return .long (Int64.ofInt (← signedPayload .long arg))
  | .float => return .float (UInt32.ofNat (← highPayload .float arg))
  | .double => return .double (UInt64.ofNat (← highPayload .double arg))
  | .methodType => return .methodType (← t.prototype (← payload .methodType arg))
  | .methodHandle => return .methodHandle (← t.handle (← payload .methodHandle arg))
  | .string => return .string (← t.string (← payload .string arg))
  | .type => return .type (← t.type (← payload .type arg))
  | .field => return .field (← t.field (← payload .field arg))
  | .method => return .method (← t.method (← payload .method arg))
  | .enum => return .enum (← t.field (← payload .enum arg))
  | .array => do
    plain .array arg 0
    return .array (← countedList (decodeValue t depth))
  | .nested => do
    plain .nested arg 0
    let (type, elements) ← annotationParts t (decodeValue t depth)
    return .nested type elements
  | .null => do
    plain .null arg 0
    return .null
  | .boolean => do
    plain .boolean arg 1
    return .boolean (arg == 1)

/-- A value is read by its first byte, which says what follows. -/
theorem decodeValue_succ (t : Tables) (depth : Nat) :
    decodeValue t (depth + 1) = (do
      let lead ← Decoder.number 1
      match ValueKind.ofCode? (lead % 0x20) with
      | none => throw (.malformedValue (lead % 0x20) (lead / 0x20))
      | some kind => valueBody t depth (lead / 0x20) kind) := by
  rw [decodeValue]
  congr 1
  funext lead
  dsimp only
  cases ValueKind.ofCode? (lead % 0x20) with
  | none => rfl
  | some kind => cases kind <;> rfl

/-- A value is read behind a first byte that holds its kind and an argument. -/
theorem reads_lead {t : Tables} {depth : Nat} (kind : ValueKind) (arg : Nat) {bytes : List UInt8}
    {v : Value} (small : arg < 8) (read : Reads (valueBody t depth arg kind) bytes v) :
    Reads (decodeValue t (depth + 1)) (UInt8.ofNat (arg * 0x20 + kind.code) :: bytes) v := by
  have code := code_lt kind
  have lead : Reads (Decoder.number 1) [UInt8.ofNat (arg * 0x20 + kind.code)]
      (arg * 0x20 + kind.code) := by
    have number := Reads.number (k := 1) (n := arg * 0x20 + kind.code) (by omega)
    simpa [le] using number
  rw [decodeValue_succ, ← List.singleton_append]
  refine lead.bind ?_
  rw [show (arg * 0x20 + kind.code) % 0x20 = kind.code by omega,
    show (arg * 0x20 + kind.code) / 0x20 = arg by omega, ofCode?_code]
  exact read

/-- The size in the first byte is that of what follows. -/
theorem reads_withSize {t : Tables} {depth : Nat} {kind : ValueKind} {bytes : List UInt8} {v : Value}
    (size : 0 < bytes.length ∧ bytes.length ≤ 8)
    (read : Reads (valueBody t depth (bytes.length - 1) kind) bytes v) :
    Reads (decodeValue t (depth + 1)) (withSize kind bytes) v :=
  reads_lead kind _ (by omega) read

/-! ## Lists -/

/-- Items are written one by one. -/
theorem encodeValues_eq (p : Pool) (vs : List Value) : encodeValues p vs = vs.map (encodeValue p) := by
  induction vs with
  | nil => rfl
  | cons v vs ih => rw [encodeValues, ih, List.map_cons]

/-- So are elements, each with the index of its name. -/
theorem encodeElements_eq (p : Pool) (elements : List (String × Value)) :
    encodeElements p elements = elements.map fun e => (p.string e.1, encodeValue p e.2) := by
  induction elements with
  | nil => rfl
  | cons e elements ih => rw [encodeElements, ih, List.map_cons]

/-- The form of an element. -/
def encodeElement (p : Pool) (e : String × Value) : List UInt8 :=
  uleb (p.string e.1) ++ encodeValue p e.2

theorem uleb_ne_nil (n : Nat) : uleb n ≠ [] := Leb128.encode_ne_nil _

/-- No value is written to nothing. -/
theorem encodeValue_ne_nil (p : Pool) (v : Value) : encodeValue p v ≠ [] := by
  cases v <;> simp [encodeValue, indexed, withSize]

theorem encodeElement_ne_nil (p : Pool) (e : String × Value) : encodeElement p e ≠ [] := by
  simp [encodeElement, encodeValue_ne_nil]

/-- A counted form is at least as long as its items together. -/
theorem length_counted {ι : Type} (form : ι → List UInt8) (items : List ι) :
    (items.flatMap form).length ≤ (counted (items.map form)).length := by
  rw [counted, List.length_append, List.flatMap_def]
  omega

/-- Items are read back behind their number. -/
theorem reads_countedList {ι α : Type} {d : Decoder α} {form : ι → List UInt8} {value : ι → α}
    {items : List ι} (few : items.length < 2 ^ 32)
    (each : ∀ i ∈ items, Reads d (form i) (value i)) :
    Reads (countedList d) (counted (items.map form)) (items.map value) := by
  rw [counted, List.length_map, ← List.flatMap_def]
  exact (Reads.uleb few).bind (Reads.times_map each)

section Values

variable {ms : List Mention} {t : Tables}

/-- Elements are written in the order of their names. -/
theorem orderedElements_eq {elements : List (String × Value)}
    (names : ∀ e ∈ elements, e.1 ∈ ms.flatMap Mention.strings) :
    orderedElements (encodeElements (Pool.ofMentions ms) elements)
      = (byName elements).map (encodeElement (Pool.ofMentions ms)) := by
  rw [orderedElements, encodeElements_eq, byName, ← map_sortOn (fun e => units e.1),
    List.map_map]
  · rfl
  · intro a ha b hb
    exact (compare_strings (names a ha) (names b hb)).symm

/-- What the elements of an annotation mention, the elements mention. -/
theorem mem_elementMentions {elements : List (String × Value)} {e : String × Value}
    (mem : e ∈ elements) :
    .string e.1 ∈ Value.elementMentions elements
      ∧ ∀ m ∈ e.2.mentions, m ∈ Value.elementMentions elements := by
  induction elements with
  | nil => cases mem
  | cons a elements ih =>
    rw [Value.elementMentions]
    rcases List.mem_cons.mp mem with rfl | later
    · exact ⟨by simp, fun m hm => by simp [hm]⟩
    · exact ⟨by simp [(ih later).1], fun m hm => by simp [(ih later).2 m hm]⟩

/-- An array mentions what its items do. -/
theorem mem_allMentions {vs : List Value} {v : Value} (mem : v ∈ vs) :
    ∀ m ∈ v.mentions, m ∈ Value.allMentions vs := by
  induction vs with
  | nil => cases mem
  | cons w vs ih =>
    intro m hm
    rw [Value.allMentions, List.mem_append]
    rcases List.mem_cons.mp mem with rfl | later
    · exact Or.inl hm
    · exact Or.inr (ih later m hm)

/-- The form of the type and the elements of an annotation. -/
def encodeParts (p : Pool) (d : Descriptor) (elements : List (String × Value)) : List UInt8 :=
  uleb (p.type d) ++ counted (orderedElements (encodeElements p elements))

/-- The names of elements are strings of the tables. -/
theorem mem_strings_of_elements {d : Descriptor} {elements : List (String × Value)}
    (held : ∀ m ∈ .type d :: Value.elementMentions elements, (Pool.ofMentions ms).Holds m) :
    ∀ e ∈ elements, e.1 ∈ ms.flatMap Mention.strings := fun e he =>
  (Table.mem_items _).mp (held (.string e.1) (List.mem_cons_of_mem _ (mem_elementMentions he).1))

/-- An annotation is written with a byte at least for each element, and takes
no less room than any of their values. -/
theorem length_encodeParts (p : Pool) (d : Descriptor) (elements : List (String × Value)) :
    elements.length ≤ (encodeParts p d elements).length
      ∧ ∀ e ∈ elements, (encodeValue p e.2).length ≤ (encodeParts p d elements).length := by
  have perm : (orderedElements (encodeElements p elements)).Perm (elements.map (encodeElement p)) := by
    rw [orderedElements, encodeElements_eq]
    refine ((sortOn_perm _ _).map _).trans ?_
    rw [List.map_map]
    exact .refl _
  have total := perm.flatten.length_eq
  have count := count_le_flatMap fun e (_ : e ∈ elements) => encodeElement_ne_nil p e
  rw [← List.flatMap_def] at total
  rw [encodeParts, counted, List.length_append, List.length_append, total]
  refine ⟨by omega, fun e he => ?_⟩
  have piece := length_le_flatMap (encodeElement p) he
  have value : (encodeValue p e.2).length ≤ (encodeElement p e).length := by simp [encodeElement]
  omega

/-- The type and the elements of an annotation are read back, given that the
values of the elements are. -/
theorem reads_annotationParts (indexed : Indexed (Pool.ofMentions ms) t ms) {d : Descriptor}
    {elements : List (String × Value)} {value : Decoder Value}
    (held : ∀ m ∈ .type d :: Value.elementMentions elements, (Pool.ofMentions ms).Holds m)
    (few : elements.length < 2 ^ 32)
    (each : ∀ e ∈ elements, Reads value (encodeValue (Pool.ofMentions ms) e.2) e.2.normal) :
    Reads (annotationParts t value) (encodeParts (Pool.ofMentions ms) d elements)
      (d, byName (Value.elementsNormal elements)) := by
  have names := mem_strings_of_elements held
  have type := indexed.type d ((Table.mem_items _).mp (held (.type d) List.mem_cons_self))
  have count : (byName elements).length = elements.length := length_sortOn _ _
  rw [encodeParts, orderedElements_eq names, byName_normal, counted, List.length_map,
    ← List.flatMap_def, annotationParts]
  refine (Reads.uleb (by omega)).bind ((Reads.uleb (by omega)).bind ?_)
  refine Reads.lift_bind type.2 ?_
  refine (Reads.times_map fun e he => ?_).map fun elements => (d, elements)
  have name := indexed.string e.1 (names e (mem_byName.mp he))
  refine (Reads.uleb (by unfold noIndex at name; omega)).bind (Reads.lift_bind name.2 ?_)
  exact (each e (mem_byName.mp he)).map fun v => (e.1, v)

/-! Values without parts are read back as they are. -/

/-- A byte is read back. -/
theorem reads_byte (depth : Nat) (v : Int8) :
    Reads (decodeValue t (depth + 1)) (withSize .byte [v.toUInt8]) (.byte v) := by
  have spelled : Int.bmod (ofLe [v.toUInt8]) (256 ^ 1) = v.toInt := by
    simp only [ofLe, Nat.mul_zero, Nat.add_zero]
    exact (BitVec.toInt_eq_toNat_bmod v.toBitVec).symm
  have read := (Reads.payload .byte (by simp) (Nat.le_refl [v.toUInt8].length)).map
    (fun n : Nat => Value.byte (Int8.ofInt (Int.bmod n (256 ^ 1))))
  rw [spelled, Int8.ofInt_toInt] at read
  exact reads_withSize (by simp) read

theorem reads_short (depth : Nat) (v : Int16) :
    Reads (decodeValue t (depth + 1)) (withSize .short (shortestSigned v.toInt)) (.short v) := by
  have read := (Reads.signed .short (v := v.toInt) (by simp [ValueKind.maxSize])
    (by simp) (by decide) (by decide)).map fun n => Value.short (Int16.ofInt n)
  rw [Int16.ofInt_toInt] at read
  exact reads_withSize (length_shortestSigned _) read

theorem reads_char (depth : Nat) (u : UInt16) :
    Reads (decodeValue t (depth + 1)) (withSize .char (shortestUnsigned u.toNat)) (.char u) := by
  have read := (Reads.unsigned .char (n := u.toNat) u.toNat_lt (by decide)
    (by decide)).map fun n => Value.char (UInt16.ofNat n)
  rw [UInt16.ofNat_toNat] at read
  exact reads_withSize (length_shortestUnsigned _) read

theorem reads_int (depth : Nat) (v : Int32) :
    Reads (decodeValue t (depth + 1)) (withSize .int (shortestSigned v.toInt)) (.int v) := by
  have read := (Reads.signed .int (v := v.toInt) (by simp [ValueKind.maxSize])
    (by simp) (by decide) (by decide)).map fun n => Value.int (Int32.ofInt n)
  rw [Int32.ofInt_toInt] at read
  exact reads_withSize (length_shortestSigned _) read

theorem reads_long (depth : Nat) (v : Int64) :
    Reads (decodeValue t (depth + 1)) (withSize .long (shortestSigned v.toInt)) (.long v) := by
  have read := (Reads.signed .long (v := v.toInt) (by simp [ValueKind.maxSize])
    (by simp) (by decide) (by decide)).map fun n => Value.long (Int64.ofInt n)
  rw [Int64.ofInt_toInt] at read
  exact reads_withSize (length_shortestSigned _) read

/-- So are the bits of a float. -/
theorem reads_float (depth : Nat) (bits : UInt32) :
    Reads (decodeValue t (depth + 1)) (withSize .float (dropLowZeros (le 4 bits.toNat)))
      (.float bits) := by
  have read := (Reads.high .float (by simp [le]) (length_le 4 bits.toNat)).map
    fun n => Value.float (UInt32.ofNat n)
  rw [ofLe_le bits.toNat_lt, UInt32.ofNat_toNat] at read
  exact reads_withSize (length_dropLowZeros (by simp [le]) (by simp)) read

theorem reads_double (depth : Nat) (bits : UInt64) :
    Reads (decodeValue t (depth + 1)) (withSize .double (dropLowZeros (le 8 bits.toNat)))
      (.double bits) := by
  have read := (Reads.high .double (by simp [le]) (length_le 8 bits.toNat)).map
    fun n => Value.double (UInt64.ofNat n)
  rw [ofLe_le bits.toNat_lt, UInt64.ofNat_toNat] at read
  exact reads_withSize (length_dropLowZeros (by simp [le]) (by simp)) read

theorem reads_null (depth : Nat) :
    Reads (decodeValue t (depth + 1)) [UInt8.ofNat ValueKind.null.code] .null := by
  have read : Reads (valueBody t depth 0 .null) [] .null := Reads.pure Value.null
  have lead := reads_lead .null 0 (by decide) read
  rwa [Nat.zero_mul, Nat.zero_add] at lead

/-- So is a truth value, which stands in the first byte. -/
theorem reads_boolean (depth : Nat) (b : Bool) :
    Reads (decodeValue t (depth + 1)) [UInt8.ofNat (b.toNat * 0x20 + ValueKind.boolean.code)]
      (.boolean b) := by
  have read : Reads (valueBody t depth b.toNat .boolean) [] (.boolean b) := by
    cases b <;> exact Reads.pure _
  exact reads_lead .boolean b.toNat (by cases b <;> decide) read

/-- An index is read back as what it was assigned to. -/
theorem reads_indexed {α : Type} {kind : ValueKind} {index : Nat} {a : α} (make : α → Value)
    {find : Nat → Except DecodeFault α} {depth : Nat} (wide : kind.maxSize = 4)
    (small : index < 2 ^ 32) (found : find index = .ok a)
    (body : ∀ arg, valueBody t depth arg kind = do
      return make (← find (← payload kind arg))) :
    Reads (decodeValue t (depth + 1)) (indexed kind index) (make a) := by
  have number : Reads (payload kind ((shortestUnsigned index).length - 1))
      (shortestUnsigned index) index :=
    Reads.unsigned kind (by rwa [wide]) (by omega) (by omega)
  have read := number.bind (f := fun i => do return make (← find i))
    (Reads.lift_bind found (Reads.pure (make a)))
  rw [List.append_nil] at read
  exact reads_withSize (length_shortestUnsigned index) (by rw [body]; exact read)

/-- A value is read back in its normal form if the tables hold what it mentions and 32 bits
can count the items of each list in it. That its form is no longer than the depth allowed
makes it nested less deep than that. -/
theorem reads_value (indexed : Indexed (Pool.ofMentions ms) t ms) {v : Value} {depth : Nat}
    (held : ∀ m ∈ v.mentions, (Pool.ofMentions ms).Holds m) (few : ∀ w ∈ v.parts, w.count < 2 ^ 32)
    (shallow : (encodeValue (Pool.ofMentions ms) v).length ≤ depth) :
    Reads (decodeValue t depth) (encodeValue (Pool.ofMentions ms) v) v.normal := by
  -- Each level of nesting has a byte of its own, so the induction is on the depth.
  induction depth generalizing v with
  | zero =>
    have positive := List.length_pos_iff.mpr (encodeValue_ne_nil (Pool.ofMentions ms) v)
    omega
  | succ depth ih =>
    cases v with
    | byte v =>
      rw [encodeValue, Value.normal]
      exact reads_byte depth v
    | short v =>
      rw [encodeValue, Value.normal]
      exact reads_short depth v
    | char u =>
      rw [encodeValue, Value.normal]
      exact reads_char depth u
    | int v =>
      rw [encodeValue, Value.normal]
      exact reads_int depth v
    | long v =>
      rw [encodeValue, Value.normal]
      exact reads_long depth v
    | float bits =>
      rw [encodeValue, Value.normal]
      exact reads_float depth bits
    | double bits =>
      rw [encodeValue, Value.normal]
      exact reads_double depth bits
    | methodType q =>
      have found := indexed.prototype q
        ((Table.mem_items _).mp (held (.prototype q) List.mem_cons_self))
      rw [encodeValue, Value.normal]
      exact reads_indexed .methodType rfl (by omega) found.2 fun _ => rfl
    | methodHandle h =>
      have found := indexed.handle h ((Table.mem_items _).mp (held (.handle h) List.mem_cons_self))
      rw [encodeValue, Value.normal]
      exact reads_indexed .methodHandle rfl found.1 found.2 fun _ => rfl
    | string s =>
      have found := indexed.string s ((Table.mem_items _).mp (held (.string s) List.mem_cons_self))
      rw [encodeValue, Value.normal]
      exact reads_indexed .string rfl (by unfold noIndex at found; omega) found.2 fun _ => rfl
    | type d =>
      have found := indexed.type d ((Table.mem_items _).mp (held (.type d) List.mem_cons_self))
      rw [encodeValue, Value.normal]
      exact reads_indexed .type rfl (by omega) found.2 fun _ => rfl
    | field f =>
      have found := indexed.field f ((Table.mem_items _).mp (held (.field f) List.mem_cons_self))
      rw [encodeValue, Value.normal]
      exact reads_indexed .field rfl found.1 found.2 fun _ => rfl
    | method m =>
      have found := indexed.method m ((Table.mem_items _).mp (held (.method m) List.mem_cons_self))
      rw [encodeValue, Value.normal]
      exact reads_indexed .method rfl found.1 found.2 fun _ => rfl
    | enum f =>
      have found := indexed.field f ((Table.mem_items _).mp (held (.field f) List.mem_cons_self))
      rw [encodeValue, Value.normal]
      exact reads_indexed .enum rfl found.1 found.2 fun _ => rfl
    | array items =>
      have form : encodeValue (Pool.ofMentions ms) (.array items)
          = UInt8.ofNat (0 * 0x20 + ValueKind.array.code)
            :: counted (items.map (encodeValue (Pool.ofMentions ms))) := by
        rw [encodeValue, encodeValues_eq, Nat.zero_mul, Nat.zero_add]
      rw [form, List.length_cons] at shallow
      rw [Value.parts, List.forall_mem_cons, Value.allParts_eq] at few
      have total := length_counted (encodeValue (Pool.ofMentions ms)) items
      have each : ∀ v ∈ items,
          Reads (decodeValue t depth) (encodeValue (Pool.ofMentions ms) v) v.normal := by
        intro v hv
        have piece := length_le_flatMap (encodeValue (Pool.ofMentions ms)) hv
        exact ih (fun m hm => held m (mem_allMentions hv m hm))
          (fun w hw => few.2 w (List.mem_flatMap.mpr ⟨v, hv, hw⟩)) (by omega)
      rw [form, Value.normal, Value.allNormal_eq]
      refine reads_lead .array 0 (by decide) ?_
      exact (reads_countedList few.1 each).map Value.array
    | nested d elements =>
      have form : encodeValue (Pool.ofMentions ms) (.nested d elements)
          = UInt8.ofNat (0 * 0x20 + ValueKind.nested.code)
            :: encodeParts (Pool.ofMentions ms) d elements := by
        rw [encodeValue, encodeParts, Nat.zero_mul, Nat.zero_add]
      rw [form, List.length_cons] at shallow
      rw [Value.parts, List.forall_mem_cons, Value.elementParts_eq] at few
      have bounds := length_encodeParts (Pool.ofMentions ms) d elements
      have each : ∀ e ∈ elements,
          Reads (decodeValue t depth) (encodeValue (Pool.ofMentions ms) e.2) e.2.normal := by
        intro e he
        have piece := bounds.2 e he
        exact ih
          (fun m hm => held m (List.mem_cons_of_mem _ ((mem_elementMentions he).2 m hm)))
          (fun w hw => few.2 w (List.mem_flatMap.mpr ⟨e, he, hw⟩)) (by omega)
      rw [form, Value.normal]
      refine reads_lead .nested 0 (by decide) ?_
      exact (reads_annotationParts indexed held few.1 each).map fun parts =>
        Value.nested parts.1 parts.2
    | null =>
      rw [encodeValue, Value.normal]
      exact reads_null depth
    | boolean b =>
      rw [encodeValue, Value.normal]
      exact reads_boolean depth b

mutual

/-- A value takes a byte at least for each item or element that there is in a part of it. -/
theorem count_le_length (p : Pool) (v : Value) :
    ∀ w ∈ v.parts, w.count ≤ (encodeValue p v).length := by
  cases v with
  | array items =>
    have total := length_counted (encodeValue p) items
    have count := count_le_flatMap fun v (_ : v ∈ items) => encodeValue_ne_nil p v
    rw [Value.parts, List.forall_mem_cons, Value.allParts_eq, encodeValue, encodeValues_eq,
      List.length_cons]
    refine ⟨by rw [Value.count]; omega, fun w hw => ?_⟩
    obtain ⟨v, hv, hw⟩ := List.mem_flatMap.mp hw
    have piece := length_le_flatMap (encodeValue p) hv
    have inner := counts_le_length p items v hv w hw
    omega
  | nested d elements =>
    have bounds := length_encodeParts p d elements
    rw [Value.parts, List.forall_mem_cons, Value.elementParts_eq, encodeValue, List.length_cons,
      ← encodeParts]
    refine ⟨by rw [Value.count]; omega, fun w hw => ?_⟩
    obtain ⟨e, he, hw⟩ := List.mem_flatMap.mp hw
    have piece := bounds.2 e he
    have inner := elementCounts_le_length p elements e he w hw
    omega
  | _ =>
    intro w hw
    obtain rfl := List.mem_singleton.mp hw
    exact Nat.zero_le _

/-- No part of a value counts more items than the value has bytes. -/
theorem counts_le_length (p : Pool) (vs : List Value) :
    ∀ v ∈ vs, ∀ w ∈ v.parts, w.count ≤ (encodeValue p v).length := by
  cases vs with
  | nil => exact fun _ mem => absurd mem List.not_mem_nil
  | cons v vs => exact List.forall_mem_cons.mpr ⟨count_le_length p v, counts_le_length p vs⟩

theorem elementCounts_le_length (p : Pool) (elements : List (String × Value)) :
    ∀ e ∈ elements, ∀ w ∈ e.2.parts, w.count ≤ (encodeValue p e.2).length := by
  cases elements with
  | nil => exact fun _ mem => absurd mem List.not_mem_nil
  | cons e elements =>
    exact List.forall_mem_cons.mpr ⟨count_le_length p e.2, elementCounts_le_length p elements⟩

end

/-- A value that is mentioned with all that it mentions is read back where its form is
short. -/
theorem reads_mentioned (indexed : Indexed (Pool.ofMentions ms) t ms) {v : Value} {depth : Nat}
    (mentioned : ∀ m ∈ v.mentions, m ∈ ms)
    (shallow : (encodeValue (Pool.ofMentions ms) v).length ≤ depth)
    (small : (encodeValue (Pool.ofMentions ms) v).length < 2 ^ 32) :
    Reads (decodeValue t depth) (encodeValue (Pool.ofMentions ms) v) v.normal :=
  reads_value indexed (fun m hm => holds_of_mention (mentioned m hm))
    (fun w hw => Nat.lt_of_le_of_lt (count_le_length _ v w hw) small) shallow

/-- An annotation is read back in its normal form. -/
theorem reads_annotationItem (indexed : Indexed (Pool.ofMentions ms) t ms) {a : Annotation} {depth : Nat}
    (mentioned : ∀ m ∈ a.mentions, m ∈ ms)
    (shallow : (encodeAnnotationItem (Pool.ofMentions ms) a).length ≤ depth)
    (small : (encodeAnnotationItem (Pool.ofMentions ms) a).length < 2 ^ 32) :
    Reads (decodeAnnotationItem t depth) (encodeAnnotationItem (Pool.ofMentions ms) a) a.normal := by
  have form : encodeAnnotationItem (Pool.ofMentions ms) a
      = [UInt8.ofNat a.visibility.code] ++ encodeParts (Pool.ofMentions ms) a.type a.elements := rfl
  rw [form, List.length_append] at shallow small
  have bounds := length_encodeParts (Pool.ofMentions ms) a.type a.elements
  have each : ∀ e ∈ a.elements,
      Reads (decodeValue t depth) (encodeValue (Pool.ofMentions ms) e.2) e.2.normal := by
    intro e he
    have piece := bounds.2 e he
    exact reads_mentioned indexed
      (fun m hm => mentioned m (List.mem_cons_of_mem _ ((mem_elementMentions he).2 m hm)))
      (by omega) (by omega)
  have code : Reads (Decoder.number 1) [UInt8.ofNat a.visibility.code] a.visibility.code := by
    have number := Reads.number (k := 1) (n := a.visibility.code) (by cases a.visibility <;> decide)
    simpa [le] using number
  have known : Visibility.ofCode? a.visibility.code = some a.visibility := by
    cases a.visibility <;> rfl
  rw [form, decodeAnnotationItem]
  refine code.bind ?_
  rw [known]
  exact (reads_annotationParts indexed (fun m hm => holds_of_mention (mentioned m hm)) (by omega)
    each).map fun parts => Annotation.mk a.visibility parts.1 parts.2

end Values

end StubJar.Container
