import StubJar.Proofs.Container.ReadValues
import StubJar.Proofs.Dalvik.Mentions

/-!
# Values in the shortest form

A value is read in any size that its kind has room for, and written in the fewest bytes that
say the same (`length_encodeValue_le`). Whatever is read with the tables of a pool can be
written with the pool (`inherited_writable`), so reading and writing lead back to the same
value from either side (`values_readBack`).
-/

namespace StubJar.Container

open StubJar.Bytes StubJar.Dalvik StubJar.Order

/-! ## Writing the shortest -/

section Writing

variable {bytes : List UInt8} {ms : List Mention}

/-- No bytes with the same number and sign are fewer. -/
theorem length_shortestSigned_le {v : Int} (same : v = bySign bytes) (some : bytes ≠ [])
    (short : bytes.length ≤ 8) : (shortestSigned v).length ≤ bytes.length := by
  have positive := List.length_pos_iff.mpr some
  have fits : Int.bmod v (256 ^ bytes.length) = v := by rw [same, bySign, Int.bmod_bmod]
  have size : (shortestSigned v).length = signedSize v 7 1 := length_le _ _
  rw [size]
  exact signedSize_le fits positive (by omega)

theorem length_shortestUnsigned_le {n : Nat} (same : n = ofLe bytes) (some : bytes ≠ [])
    (short : bytes.length ≤ 8) : (shortestUnsigned n).length ≤ bytes.length := by
  have positive := List.length_pos_iff.mpr some
  have size : (shortestUnsigned n).length = unsignedSize n 7 1 := length_le _ _
  rw [size]
  exact unsignedSize_le (same ▸ ofLe_lt bytes) positive (by omega)

/-- Zeros in front are dropped. -/
theorem length_dropLowZeros_zeros (n : Nat) (some : bytes ≠ []) :
    (dropLowZeros (List.replicate n 0 ++ bytes)).length ≤ bytes.length := by
  induction n with
  | zero => exact (dropLowZeros_spec bytes some).2.1
  | succ n ih =>
    rw [List.replicate_succ, List.cons_append, dropLowZeros, if_pos rfl]
    · exact ih
    · simp [some]

/-- No bytes with the same number behind zeros are fewer. -/
theorem length_dropLowZeros_le {width n : Nat} (same : n = behindZeros width bytes)
    (some : bytes ≠ []) (short : bytes.length ≤ width) :
    (dropLowZeros (le width n)).length ≤ bytes.length := by
  have spelled : le width n = List.replicate (width - bytes.length) 0 ++ bytes := by
    refine ofLe_injective (by simp; omega) ?_
    rw [same, ofLe_le (behindZeros_lt short), behindZeros]
  rw [spelled]
  exact length_dropLowZeros_zeros _ some

/-- The index that stands for something is the position of its row. -/
theorem length_indexed_le {α : Type} [BEq α] [LawfulBEq α] [Hashable α] (kind : ValueKind)
    {key : α → Key} {items : List α} {a : α}
    (stands : (Table.ofItems key items).items.toArray[ofLe bytes]? = Option.some a)
    (some : bytes ≠ []) (short : bytes.length ≤ 8) :
    (indexed kind ((Table.ofItems key items).indexOf a)).length ≤ bytes.length + 1 := by
  rw [List.getElem?_toArray] at stands
  exact Nat.succ_le_succ
    (length_shortestUnsigned_le (Table.indexOf_of_getElem? key stands) some short)

/-- No value takes more than eight bytes. -/
theorem maxSize_le (kind : ValueKind) : kind.maxSize ≤ 8 := by
  cases kind <;> decide

/-- No bytes that mean the value are fewer than those that it is written with. -/
theorem length_encodeValue_le {v : Value} (means : Means (Pool.ofMentions ms).tables bytes v)
    (some : bytes ≠ []) (fits : bytes.length ≤ (kindOf v).maxSize) :
    (encodeValue (Pool.ofMentions ms) v).length ≤ bytes.length + 1 := by
  have short := Nat.le_trans fits (maxSize_le (kindOf v))
  cases v with
  | byte v =>
    rw [encodeValue]
    exact Nat.succ_le_succ (List.length_pos_iff.mpr some)
  | short v | int v | long v =>
    rw [encodeValue]
    exact Nat.succ_le_succ (length_shortestSigned_le means some short)
  | char u =>
    rw [encodeValue]
    exact Nat.succ_le_succ (length_shortestUnsigned_le means some short)
  | float bits =>
    rw [encodeValue]
    exact Nat.succ_le_succ (length_dropLowZeros_le means some fits)
  | double bits =>
    rw [encodeValue]
    exact Nat.succ_le_succ (length_dropLowZeros_le means some fits)
  | methodType q | methodHandle h | string s | type d | field f | method m | enum f =>
    rw [encodeValue]
    exact length_indexed_le _ means some short
  | array | nested | null | boolean => exact absurd means id

end Writing

/-! ## What was read can be written -/

/-- The pool has a row for all that the value mentions, and 32 bits can count each list in
it. -/
structure Writable (p : Pool) (v : Value) : Prop where
  held : ∀ m ∈ v.mentions, p.Holds m
  countable : ∀ w ∈ v.parts, w.count < 2 ^ 32

section Writable

variable {p : Pool}

/-- A value without others in it. -/
theorem Writable.flat {v : Value} (held : ∀ m ∈ v.mentions, p.Holds m) (alone : v.parts = [v])
    (empty : v.count = 0) : Writable p v := by
  refine ⟨held, fun w hw => ?_⟩
  rw [alone] at hw
  obtain rfl := List.mem_singleton.mp hw
  omega

/-- An array can be written if its items can. -/
theorem Writable.array {vs : List Value} (few : vs.length < 2 ^ 32)
    (each : ∀ v ∈ vs, Writable p v) : Writable p (.array vs) := by
  constructor
  · rw [Value.mentions, Value.allMentions_eq]
    intro m hm
    obtain ⟨v, hv, hm⟩ := List.mem_flatMap.mp hm
    exact (each v hv).held m hm
  · rw [Value.parts, Value.allParts_eq, List.forall_mem_cons]
    refine ⟨few, fun w hw => ?_⟩
    obtain ⟨v, hv, hw⟩ := List.mem_flatMap.mp hw
    exact (each v hv).countable w hw

/-- So can an annotation, with its names in the tables. -/
theorem Writable.nested {d : Descriptor} {elements : List (String × Value)}
    (type : p.Holds (.type d)) (few : elements.length < 2 ^ 32)
    (each : ∀ e ∈ elements, p.Holds (.string e.1) ∧ Writable p e.2) :
    Writable p (.nested d elements) := by
  constructor
  · rw [Value.mentions, Value.elementMentions_eq, List.forall_mem_cons]
    refine ⟨type, fun m hm => ?_⟩
    obtain ⟨e, he, hm⟩ := List.mem_flatMap.mp hm
    rcases List.mem_cons.mp hm with rfl | hm
    · exact (each e he).1
    · exact (each e he).2.held m hm
  · rw [Value.parts, Value.elementParts_eq, List.forall_mem_cons]
    refine ⟨few, fun w hw => ?_⟩
    obtain ⟨e, he, hw⟩ := List.mem_flatMap.mp hw
    exact (each e he).2.countable w hw

/-- What stands in a row is an item of the table. -/
theorem mem_of_row {α : Type} {items : List α} {i : Nat} {a : α}
    (stands : items.toArray[i]? = some a) : a ∈ items := by
  rw [List.getElem?_toArray] at stands
  exact List.mem_of_getElem? stands

/-- What bytes mean is held, for it was found in a row. -/
theorem writable_of_means {bytes : List UInt8} {v : Value} (means : Means p.tables bytes v) :
    Writable p v := by
  cases v with
  | methodType q | methodHandle h | string s | type d | field f | method m | enum f =>
    refine Writable.flat (fun m hm => ?_) rfl rfl
    obtain rfl := List.mem_singleton.mp hm
    exact mem_of_row means
  | array | nested | null | boolean => exact absurd means id
  | _ => exact Writable.flat (fun m hm => absurd hm List.not_mem_nil) rfl rfl

/-- Whatever is read with the tables of a pool can be written with the pool. -/
theorem inherited_writable (p : Pool) : Inherited p.tables (Writable p) where
  means := writable_of_means
  null := Writable.flat (fun _ mem => absurd mem List.not_mem_nil) rfl rfl
  boolean _ := Writable.flat (fun _ mem => absurd mem List.not_mem_nil) rfl rfl
  array few each := Writable.array few each
  nested type few each := Writable.nested (List.mem_toArray.mp type) few fun e he =>
    ⟨List.mem_toArray.mp (each e he).1, (each e he).2⟩

end Writable

/-- A value that is read with bytes of its own has no elements to put in order. -/
theorem normal_of_sized {v : Value} (sized : 0 < (kindOf v).maxSize) : v.normal = v := by
  cases v with
  | array | nested => exact absurd sized (Nat.lt_irrefl 0)
  | _ => rfl

/-- With the tables of a pool a value that can be written, such as one that the pool was made
of, is read back in its normal form. Behind a first byte that says how many bytes follow,
every number of them that the kind has room for is read, as what they mean. No other form of
such a value is shorter than the one that it is written in. Whatever is read, in whatever
form, can be written and read again. -/
theorem values_readBack {ms : List Mention} {p : Pool} (made : p = Pool.ofMentions ms)
    (small : p.Small) :
    (∀ v depth, Writable p v → (encodeValue p v).length ≤ depth →
        Reads (decodeValue p.tables depth) (encodeValue p v) v.normal)
      ∧ (∀ kind depth lead tail v rest, lead.toNat % 0x20 = ValueKind.code kind →
        0 < kind.maxSize →
        (decodeValue p.tables (depth + 1) (lead :: tail) = .ok (v, rest) ↔
          kindOf v = kind ∧ ∃ bytes, Payload kind (lead.toNat / 0x20) tail bytes rest
            ∧ Means p.tables bytes v))
      ∧ (∀ depth input v rest, decodeValue p.tables depth input = .ok (v, rest) →
        0 < (kindOf v).maxSize → (encodeValue p v).length + rest.length ≤ input.length)
      ∧ ∀ depth input v rest, decodeValue p.tables depth input = .ok (v, rest) →
        (0 < (kindOf v).maxSize → v.normal = v)
          ∧ ∀ enough, (encodeValue p v).length ≤ enough →
            Reads (decodeValue p.tables enough) (encodeValue p v) v.normal := by
  subst made
  have back (v : Value) (depth : Nat) (writable : Writable (Pool.ofMentions ms) v)
      (shallow : (encodeValue (Pool.ofMentions ms) v).length ≤ depth) :=
    reads_value (indexed_tables small) writable.held writable.countable shallow
  refine ⟨back, fun kind depth lead tail v rest tag sized => decodeValue_eq_ok tag sized,
    fun depth input v rest read sized => ?_, fun depth input v rest read => ?_⟩
  · obtain ⟨lead, bytes, pieces, some, fits, means⟩ := means_of_decode read sized
    have shortest := length_encodeValue_le means some fits
    rw [pieces]
    simp only [List.length_cons, List.length_append]
    omega
  · exact ⟨normal_of_sized, fun enough => back v enough ((inherited_writable _).value depth _ v rest read)⟩

/-- An annotation with its elements out of order. -/
def listedValue : Value := .nested ⟨"LA;"⟩ [("b", .int 300), ("a", .string "b")]

/-- Its elements are sorted by their names. -/
theorem listedValue_normal :
    listedValue.normal = .nested ⟨"LA;"⟩ [("a", .string "b"), ("b", .int 300)] := by
  have apart : Text.units "a" ≠ Text.units "b" := by decide
  have swapped : byName [("b", Value.int 300), ("a", .string "b")]
      = byName [("a", .string "b"), ("b", .int 300)] :=
    sortOn_eq_of_perm (.swap _ _ []) (by simp [apart, apart.symm])
  have inOrder : byName [("a", Value.string "b"), ("b", .int 300)]
      = [("a", .string "b"), ("b", .int 300)] :=
    sortOn_of_ascending (List.pairwise_pair.mpr (by decide))
  exact congrArg (Value.nested ⟨"LA;"⟩) (swapped.trans inOrder)

theorem small_listedValue : (Pool.ofMentions listedValue.mentions).Small where
  strings := Nat.le_trans (Table.size_le _ _) (show 4 ≤ noIndex by decide)
  types := Nat.le_trans (Table.size_le _ _) (show 1 ≤ 0xFFFF by decide)
  prototypes := Nat.le_trans (Table.size_le _ _) (Nat.zero_le _)
  fields := Nat.le_trans (Table.size_le _ _) (Nat.zero_le _)
  methods := Nat.le_trans (Table.size_le _ _) (Nat.zero_le _)
  handles := Nat.le_trans (Table.size_le _ _) (Nat.zero_le _)
  members some := absurd (Nat.le_zero.mp (Table.size_le _ _)) some

/-- The annotation comes back with its elements in order, and the number five, written in
four bytes instead of one, is read and then takes no more room than it had. -/
theorem values_readBack_listedValue : ∃ p : Pool, p = Pool.ofMentions listedValue.mentions ∧ p.Small
    ∧ Reads (decodeValue p.tables (encodeValue p listedValue).length) (encodeValue p listedValue)
      (.nested ⟨"LA;"⟩ [("a", .string "b"), ("b", .int 300)])
    ∧ decodeValue p.tables 1 [0x64, 5, 0, 0, 0, 9] = .ok (.int 5, [9])
    ∧ (encodeValue p (.int 5)).length + 1 ≤ 6
    ∧ Reads (decodeValue p.tables 5) (encodeValue p (.int 5)) (.int 5) := by
  obtain ⟨back, sizes, shortest, again⟩ := values_readBack rfl small_listedValue
  have writable : Writable (Pool.ofMentions listedValue.mentions) listedValue :=
    ⟨fun _ mem => holds_of_mention mem,
      by simp [listedValue, Value.parts, Value.elementParts, Value.count]⟩
  have read := (sizes .int 0 0x64 [5, 0, 0, 0, 9] (.int 5) [9] rfl (by decide)).mpr
    ⟨rfl, [5, 0, 0, 0], ⟨rfl, rfl, by decide⟩,
      show (5 : Int32).toInt = bySign [5, 0, 0, 0] by decide⟩
  have shorter := shortest _ _ _ _ read (by decide)
  exact ⟨_, rfl, small_listedValue,
    listedValue_normal ▸ back listedValue _ writable (Nat.le_refl _), read, shorter,
    (again _ _ _ _ read).2 5 (Nat.le_of_succ_le_succ shorter)⟩

end StubJar.Container
