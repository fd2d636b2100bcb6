import StubJar.Container.ClassTable
import StubJar.Proofs.Bytes.Numbers
import StubJar.Proofs.Container.RoundTrip

/-!
# Damaged containers

A container is accepted or refused by its header before anything else is read. What
stands behind the declared size is never looked at, and a container that is cut short or
has another byte in one place is refused (`decode_damaged`): the checksum covers every
byte behind it, and one byte alone always changes its lower sum (`adler32_ne`).

The first eight bytes and the declared size itself are left out. The version is among the
former, so another byte there can be the version of another container; another size makes
the checksum one of other bytes.
-/

namespace StubJar.Digest

/-! ## Sums of bytes -/

/-- The lower half of the checksum is a sum of the bytes. -/
theorem low_foldl_add (bytes : List UInt8) (s : Adler) (small : s.low < 65521) :
    (bytes.foldl Adler.add s).low = (s.low + (bytes.map UInt8.toNat).sum) % 65521 := by
  induction bytes generalizing s with
  | nil => exact (Nat.mod_eq_of_lt small).symm
  | cons b bytes ih =>
    have reduced : (s.add b).low = (s.low + b.toNat) % 65521 := rfl
    rw [List.foldl_cons, ih _ (Nat.mod_lt _ (by decide)), reduced, Nat.mod_add_mod, List.map_cons,
      List.sum_cons, Nat.add_assoc]

/-- The lower half of a checksum is one more than the sum of the bytes. -/
theorem adler32_mod (bytes : List UInt8) :
    adler32 bytes % 65536 = (1 + (bytes.map UInt8.toNat).sum) % 65521 := by
  have low := low_foldl_add bytes Adler.start (by decide)
  have small : (1 + (bytes.map UInt8.toNat).sum) % 65521 < 65521 := Nat.mod_lt _ (by decide)
  rw [adler32, low]
  change (_ * 65536 + (1 + _) % 65521) % 65536 = _
  omega

/-- Another byte in one place is another checksum. -/
theorem adler32_ne {a b : UInt8} (other : a ≠ b) (front back : List UInt8) :
    adler32 (front ++ a :: back) ≠ adler32 (front ++ b :: back) := by
  intro same
  have halves := congrArg (· % 65536) same
  simp only [adler32_mod, List.map_append, List.map_cons, List.sum_append, List.sum_cons] at halves
  have numbers : a.toNat ≠ b.toNat := fun equal => other (UInt8.toNat_inj.mp equal)
  have small_a := a.toNat_lt
  have small_b := b.toNat_lt
  omega

theorem adler32_set_ne {bytes : List UInt8} {i : Nat} {b : UInt8} (inside : i < bytes.length)
    (other : bytes[i]? ≠ some b) : adler32 (bytes.set i b) ≠ adler32 bytes := by
  have differ : b ≠ bytes[i] := fun same => other (same ▸ List.getElem?_eq_getElem inside)
  have parts := List.take_append_drop i bytes
  rw [List.drop_eq_getElem_cons inside] at parts
  have changed := adler32_ne differ (bytes.take i) (bytes.drop (i + 1))
  have set : bytes.set i b = bytes.take i ++ b :: bytes.drop (i + 1) := by
    rw [List.set_eq_take_append_cons_drop, if_pos inside]
  rwa [← set, parts] at changed

end StubJar.Digest

namespace StubJar.Container

open StubJar.Bytes StubJar.Dalvik StubJar.Digest

/-! ## Words of bytes that were changed -/

section Words

variable {bytes : List UInt8} {offset : Nat}

/-- A word that is left is read as before. -/
theorem wordAt_take {n : Nat} (inside : offset + 4 ≤ n) :
    wordAt (bytes.take n) offset = wordAt bytes offset := by
  rw [wordAt, wordAt, List.drop_take, List.take_take, Nat.min_eq_left (by omega)]

/-- A word is untouched by what happens to a byte outside of it. -/
theorem wordAt_set {i : Nat} (b : UInt8) (outside : i < offset ∨ offset + 4 ≤ i) :
    wordAt (bytes.set i b) offset = wordAt bytes offset := by
  rw [wordAt, wordAt, List.drop_set]
  split
  · rfl
  · rw [List.take_set, List.set_eq_of_length_le (by rw [List.length_take]; omega)]

/-- Another byte in a word is another word. -/
theorem wordAt_set_ne {i : Nat} {b : UInt8} (inside : i < bytes.length) (other : bytes[i]? ≠ some b)
    (low : offset ≤ i) (high : i < offset + 4) :
    wordAt (bytes.set i b) offset ≠ wordAt bytes offset := by
  intro same
  have pieces := ofLe_injective (by simp) same
  have place := congrArg (·[i - offset]?) pieces
  simp only [List.getElem?_take_of_lt (show i - offset < 4 by omega), List.getElem?_drop,
    Nat.add_sub_cancel' low] at place
  rw [List.getElem?_set_self inside] at place
  exact other place.symm

end Words

/-! ## What the header says -/

/-- The bytes begin like a container of the version, and have room for its header. -/
structure Titled (b : List UInt8) (version : Nat) : Prop where
  long : headerSize ≤ b.length
  lead : ((b.take 8).take 4 == magic && (b.take 8).drop 7 == [0]) = true
  version : versionOf (((b.take 8).drop 4).take 3) = .ok version

section Header

variable {b d : List UInt8} {version : Nat}

/-- Nothing but room and the first eight bytes make the title. -/
theorem Titled.of_lead (h : Titled b version) (long : headerSize ≤ d.length)
    (same : d.take 8 = b.take 8) : Titled d version :=
  ⟨long, same ▸ h.lead, same ▸ h.version⟩

/-- What is required holds if nothing fails. -/
theorem require_eq_ok {condition : Bool} {fault : DecodeFault} (h : require condition fault = .ok ()) :
    condition = true := by
  cases condition with
  | false => cases h
  | true => rfl

/-- Otherwise the fault is that of the requirement. -/
theorem require_of_not {condition : Bool} (fault : DecodeFault) (fails : condition = false) :
    require condition fault = .error fault := by
  rw [require, fails]
  rfl

/-- The checks that follow the title. -/
theorem checkHeader_of_titled (h : Titled b version) : checkHeader b = (do
    require (wordAt b Header.endianTag == endianTag) (.badEndianTag (wordAt b Header.endianTag))
    let n := wordAt b Header.fileSize
    require (n ≤ b.length && headerSize ≤ n) (.sizeMismatch n b.length)
    let expected := wordAt (b.take n) Header.checksum
    let computed := adler32 ((b.take n).drop Header.signature)
    require (expected == computed) (.checksumMismatch expected computed)
    return (version, b.take n)) := by
  simp only [checkHeader]
  rw [require_of (decide_eq_true h.long), require_of h.lead, h.version]
  rfl

/-- The header has passed every check. -/
structure Sealed (b : List UInt8) : Prop where
  tag : wordAt b Header.endianTag = endianTag
  declared : wordAt b Header.fileSize ≤ b.length ∧ headerSize ≤ wordAt b Header.fileSize
  sum : wordAt (b.take (wordAt b Header.fileSize)) Header.checksum
    = adler32 ((b.take (wordAt b Header.fileSize)).drop Header.signature)

/-- A header with a known version and a true seal is accepted. -/
theorem checkHeader_of_sealed (h : Titled b version) (s : Sealed b) :
    checkHeader b = .ok (version, b.take (wordAt b Header.fileSize)) := by
  rw [checkHeader_of_titled h]
  simp only
  rw [require_of (beq_iff_eq.mpr s.tag),
    require_of (by simpa using s.declared), require_of (beq_iff_eq.mpr s.sum)]
  rfl

/-- One that is accepted has both. -/
theorem sealed_of_checkHeader (h : checkHeader b = .ok (version, d)) : Titled b version ∧ Sealed b := by
  have titled : Titled b version := by
    rw [checkHeader] at h
    obtain ⟨_, long, h⟩ := bind_eq_ok.mp h
    obtain ⟨_, lead, h⟩ := bind_eq_ok.mp h
    obtain ⟨found, known, h⟩ := bind_eq_ok.mp h
    obtain ⟨_, _, h⟩ := bind_eq_ok.mp h
    obtain ⟨_, _, h⟩ := bind_eq_ok.mp h
    obtain ⟨_, _, h⟩ := bind_eq_ok.mp h
    cases h
    exact ⟨of_decide_eq_true (require_eq_ok long), require_eq_ok lead, known⟩
  rw [checkHeader_of_titled titled] at h
  obtain ⟨_, tag, h⟩ := bind_eq_ok.mp h
  obtain ⟨_, declared, h⟩ := bind_eq_ok.mp h
  obtain ⟨_, sum, _⟩ := bind_eq_ok.mp h
  exact ⟨titled, beq_iff_eq.mp (require_eq_ok tag), by simpa using require_eq_ok declared,
    beq_iff_eq.mp (require_eq_ok sum)⟩

end Header

/-! ## Containers behind their headers -/

section Containers

variable {b d : List UInt8} {f : File}

/-- The header is all that a container is refused for at first. -/
theorem decode_of_fault {fault : DecodeFault} (h : checkHeader b = .error fault) :
    decode b = .error fault := by
  rw [decode, openContainer, h]
  rfl

/-- What passes the checks of the header alike is read alike. -/
theorem decode_congr (same : checkHeader d = checkHeader b) : decode d = decode b := by
  rw [decode, decode, openContainer, openContainer, same]

/-- The header of a container that is read has both. -/
theorem sealed_of_decode (read : decode b = .ok f) : (∃ version, Titled b version) ∧ Sealed b := by
  obtain ⟨_, opened, _⟩ := bind_eq_ok.mp read
  obtain ⟨⟨version, bytes⟩, header, _⟩ := bind_eq_ok.mp opened
  obtain ⟨titled, sealed⟩ := sealed_of_checkHeader header
  exact ⟨⟨version, titled⟩, sealed⟩

/-! What a container says does not depend on what stands behind its declared size. -/

/-- Bytes behind the declared size make no difference. -/
theorem decode_append (read : decode b = .ok f) (tail : List UInt8) :
    decode (b.take (wordAt b Header.fileSize) ++ tail) = .ok f := by
  obtain ⟨⟨version, titled⟩, sealed⟩ := sealed_of_decode read
  obtain ⟨enough, room⟩ := sealed.declared
  generalize size : wordAt b Header.fileSize = n at enough room
  have length : (b.take n).length = n := List.length_take_of_le enough
  have front : (b.take n ++ tail).take n = b.take n := List.take_left' length
  have word {offset : Nat} (inside : offset + 4 ≤ headerSize) :
      wordAt (b.take n ++ tail) offset = wordAt b offset := by
    calc wordAt (b.take n ++ tail) offset
        = wordAt ((b.take n ++ tail).take n) offset := (wordAt_take (by omega)).symm
      _ = wordAt b offset := by rw [front, wordAt_take (by omega)]
  have declared : wordAt (b.take n ++ tail) Header.fileSize = n := by
    rw [word (by decide), size]
  have eight : (b.take n ++ tail).take 8 = b.take 8 := by
    have short : 8 ≤ n := Nat.le_trans (by decide) room
    rw [List.take_append_of_le_length (by omega), List.take_take, Nat.min_eq_left short]
  have titled' : Titled (b.take n ++ tail) version :=
    titled.of_lead (by rw [List.length_append]; omega) eight
  have sealed' : Sealed (b.take n ++ tail) := by
    refine ⟨?_, ?_, ?_⟩
    · rw [word (by decide), sealed.tag]
    · rw [declared, List.length_append]
      omega
    · have sum := sealed.sum
      rw [size] at sum
      rw [declared, front, sum]
  refine (decode_congr ?_).trans read
  rw [checkHeader_of_sealed titled' sealed', checkHeader_of_sealed titled sealed, declared, front, size]

/-- A container that ends too early is refused: where not even the header is left, for
that, and else for the size that the header declares. -/
theorem decode_take (read : decode b = .ok f) {m : Nat} (short : m < wordAt b Header.fileSize) :
    decode (b.take m) = .error (if m < headerSize then .malformed (.noHeader m)
      else .sizeMismatch (wordAt b Header.fileSize) m) := by
  obtain ⟨⟨version, titled⟩, sealed⟩ := sealed_of_decode read
  have length : (b.take m).length = m :=
    List.length_take_of_le (Nat.le_trans (Nat.le_of_lt short) sealed.declared.1)
  apply decode_of_fault
  split
  · rename_i headless
    have fails : decide (headerSize ≤ m) = false := decide_eq_false (Nat.not_le.mpr headless)
    rw [checkHeader, length, require_of_not _ fails]
    rfl
  · rename_i headed
    have room : headerSize ≤ m := Nat.le_of_not_lt headed
    have word {offset : Nat} (inside : offset + 4 ≤ headerSize) :
        wordAt (b.take m) offset = wordAt b offset := wordAt_take (by omega)
    have eight : (b.take m).take 8 = b.take 8 := by
      rw [List.take_take, Nat.min_eq_left (Nat.le_trans (by decide) room)]
    rw [checkHeader_of_titled (titled.of_lead (by omega) eight), word (by decide), word (by decide),
      length]
    simp only
    rw [require_of (beq_iff_eq.mpr sealed.tag), require_of_not _ (by simp; omega)]
    rfl

/-- Another byte behind the title is another checksum, or is not what the checksum is of. -/
theorem sum_set_ne {i : Nat} {x : UInt8} (behind : 8 ≤ i) (inside : i < d.length)
    (other : d[i]? ≠ some x) (sum : wordAt d Header.checksum = adler32 (d.drop Header.signature)) :
    wordAt (d.set i x) Header.checksum ≠ adler32 ((d.set i x).drop Header.signature) := by
  simp only [Header.checksum, Header.signature] at sum ⊢
  by_cases stored : i < 12
  · rw [List.drop_set_of_lt stored, ← sum]
    exact wordAt_set_ne inside other behind stored
  · rw [wordAt_set x (.inr (by omega)), sum, List.drop_set, if_neg stored]
    refine (adler32_set_ne ?_ ?_).symm
    · rw [List.length_drop]
      omega
    · rwa [List.getElem?_drop, Nat.add_sub_cancel' (Nat.le_of_not_lt stored)]

section Changed

variable {i : Nat} {x : UInt8}

/-- Another byte behind the title leaves the title alone. -/
theorem Titled.set {version : Nat} (h : Titled b version) (behind : 8 ≤ i) (x : UInt8) :
    Titled (b.set i x) version := by
  refine h.of_lead (by rw [List.length_set]; exact h.long) ?_
  rw [List.take_set, List.set_eq_of_length_le (by rw [List.length_take]; omega)]

/-- Another byte in the number that shows the order of bytes is another order. -/
theorem decode_set_tag (read : decode b = .ok f) (low : 40 ≤ i) (high : i < 44)
    (other : b[i]? ≠ some x) :
    decode (b.set i x) = .error (.badEndianTag (wordAt (b.set i x) Header.endianTag)) := by
  obtain ⟨⟨version, titled⟩, sealed⟩ := sealed_of_decode read
  have inside : i < b.length := Nat.lt_of_lt_of_le (Nat.lt_trans high (by decide)) titled.long
  have tag : wordAt (b.set i x) Header.endianTag ≠ wordAt b Header.endianTag :=
    wordAt_set_ne inside other low high
  rw [sealed.tag] at tag
  apply decode_of_fault
  rw [checkHeader_of_titled (titled.set (by omega) x), require_of_not _ (by simpa using tag)]
  rfl

/-- Another byte behind the title, of neither that number nor the declared size, makes the
checksum a wrong one. -/
theorem decode_set_sum (read : decode b = .ok f) (behind : 8 ≤ i)
    (inside : i < wordAt b Header.fileSize) (sized : i < 32 ∨ 36 ≤ i) (tagged : i < 40 ∨ 44 ≤ i)
    (other : b[i]? ≠ some x) :
    let damaged := (b.set i x).take (wordAt b Header.fileSize)
    decode (b.set i x) = .error (.checksumMismatch (wordAt damaged Header.checksum)
      (adler32 (damaged.drop Header.signature))) := by
  obtain ⟨⟨version, titled⟩, sealed⟩ := sealed_of_decode read
  have size : wordAt (b.set i x) Header.fileSize = wordAt b Header.fileSize := wordAt_set x sized
  have tag : wordAt (b.set i x) Header.endianTag = wordAt b Header.endianTag := wordAt_set x tagged
  have same : (b.take (wordAt b Header.fileSize))[i]? = b[i]? := List.getElem?_take_of_lt inside
  have enough : i < (b.take (wordAt b Header.fileSize)).length := by
    rw [List.length_take_of_le sealed.declared.1]
    exact inside
  have sum := sum_set_ne behind enough (same ▸ other) sealed.sum
  rw [← List.take_set] at sum
  apply decode_of_fault
  rw [checkHeader_of_titled (titled.set behind x), tag, size, List.length_set]
  simp only
  rw [require_of (beq_iff_eq.mpr sealed.tag), require_of (by simpa using sealed.declared),
    require_of_not _ (by simpa using sum)]
  rfl

end Changed

/-- A container that is read is read the same whatever stands behind its declared size. It
is refused if it ends before that, and if a byte behind the title is another one: for the
order of bytes if the byte is one of the number that shows it, for the checksum else. Only
the declared size itself may change. -/
theorem decode_damaged (read : decode b = .ok f) :
    let n := wordAt b Header.fileSize
    (∀ front, front <+: b → front.length < n → decode front = .error
      (if front.length < headerSize then .malformed (.noHeader front.length)
        else .sizeMismatch n front.length))
      ∧ (∀ tail, decode (b.take n ++ tail) = .ok f)
      ∧ ∀ i x, 8 ≤ i → i < n → i < 32 ∨ 36 ≤ i → b[i]? ≠ some x →
        let damaged := (b.set i x).take n
        decode (b.set i x) = .error
          (if 40 ≤ i ∧ i < 44 then .badEndianTag (wordAt damaged Header.endianTag)
            else .checksumMismatch (wordAt damaged Header.checksum)
              (adler32 (damaged.drop Header.signature))) := by
  refine ⟨fun front initial short => ?_, decode_append read, fun i x behind inside sized other => ?_⟩
  · obtain ⟨back, rfl⟩ := initial
    have cut := decode_take read short
    rwa [List.take_left] at cut
  · have room := (sealed_of_decode read).2.declared.2
    dsimp only
    split
    · rename_i tagged
      rw [wordAt_take (Nat.le_trans (by decide) room)]
      exact decode_set_tag read tagged.1 tagged.2 other
    · rename_i untagged
      exact decode_set_sum read behind inside sized (by omega) other

/-- A container cut inside its header, with a byte behind it, and with another first byte of
its digest. -/
theorem decode_damaged_shuffledFile : ∃ b f x, encode shuffledFile = .ok b ∧ decode b = .ok f
    ∧ b[12]? ≠ some x
    ∧ decode (b.take 111) = .error (.malformed (.noHeader 111))
    ∧ decode (b.take (wordAt b Header.fileSize) ++ [x]) = .ok f
    ∧ ∃ expected computed, decode (b.set 12 x) = .error (.checksumMismatch expected computed) := by
  obtain ⟨b, written, writes, small⟩ := encode_shuffledFile
  have read := (legible_of_regular regular_shuffledFile writes small).decode_eq
  obtain ⟨cut, extended, changed⟩ := decode_damaged read
  obtain ⟨enough, room⟩ := (sealed_of_decode read).2.declared
  simp only [headerSize] at room
  have length : (b.take 111).length = 111 := List.length_take_of_le (by omega)
  have front := cut (b.take 111) (List.take_prefix 111 b) (by omega)
  rw [length] at front
  have inside : 12 < b.length := by omega
  have other : b[12]? ≠ some (b[12] + 1) := by
    rw [List.getElem?_eq_getElem inside]
    simp
  exact ⟨b, _, b[12] + 1, written, read, other, front, extended _,
    _, _, changed 12 _ (by omega) (by omega) (by omega) other⟩

end Containers

end StubJar.Container
