import StubJar.Proofs.Success
import StubJar.Proofs.Text.ModifiedUtf8

/-!
# What modified UTF-8 is read as

Bytes are read as a string just where they fall apart into forms of its units, and a string
has a single shortest form, the one that is written (`ModifiedUtf8.decode_grammar`).

Reading takes two steps, and each is said on its own: the bytes of units are those of any of
their forms (`ModifiedUtf8.of_unitsFrom`), and the units of a string are those in which every
surrogate has its partner (`ofUnits?_eq_some`, `ofUnits?_eq_none`).
-/

namespace StubJar.Text

/-! ## Surrogates and their partners -/

/-- A surrogate that opens a pair stands at the position. -/
def HighAt (us : List Nat) (k : Nat) : Prop := ∃ u, us[k]? = some u ∧ isHighSurrogate u = true

/-- A surrogate that closes a pair stands at the position. -/
def LowAt (us : List Nat) (k : Nat) : Prop := ∃ u, us[k]? = some u ∧ isLowSurrogate u = true

/-- Some surrogate has no partner next to it. -/
def HasLoneSurrogate (us : List Nat) : Prop :=
  ∃ k, HighAt us k ∧ ¬ LowAt us (k + 1) ∨ LowAt us k ∧ ∀ j, k = j + 1 → ¬ HighAt us j

@[simp] theorem highAt_zero {u : Nat} {us : List Nat} :
    HighAt (u :: us) 0 ↔ isHighSurrogate u = true := by
  simp [HighAt]

@[simp] theorem lowAt_zero {u : Nat} {us : List Nat} :
    LowAt (u :: us) 0 ↔ isLowSurrogate u = true := by
  simp [LowAt]

@[simp] theorem highAt_succ {u k : Nat} {us : List Nat} : HighAt (u :: us) (k + 1) ↔ HighAt us k :=
  Iff.rfl

@[simp] theorem lowAt_succ {u k : Nat} {us : List Nat} : LowAt (u :: us) (k + 1) ↔ LowAt us k :=
  Iff.rfl

/-- No unit is both a high and a low surrogate. -/
theorem not_high_of_low {u : Nat} (low : isLowSurrogate u = true) : isHighSurrogate u = false := by
  simp only [isHighSurrogate, isLowSurrogate, Bool.and_eq_true, Bool.and_eq_false_iff,
    decide_eq_true_eq, decide_eq_false_iff_not] at low ⊢
  omega

/-- A unit that is no surrogate is not alone. -/
theorem hasLoneSurrogate_cons {u : Nat} {us : List Nat} (first : isHighSurrogate u = false)
    (second : isLowSurrogate u = false) : HasLoneSurrogate (u :: us) ↔ HasLoneSurrogate us := by
  constructor
  · rintro ⟨k | k, ⟨high, alone⟩ | ⟨low, alone⟩⟩
    · simp [first] at high
    · simp [second] at low
    · exact ⟨k, .inl ⟨high, alone⟩⟩
    · exact ⟨k, .inr ⟨low, fun j same => alone (j + 1) (congrArg (· + 1) same)⟩⟩
  · rintro ⟨k, ⟨high, alone⟩ | ⟨low, alone⟩⟩
    · exact ⟨k + 1, .inl ⟨high, alone⟩⟩
    · refine ⟨k + 1, .inr ⟨low, fun j same => ?_⟩⟩
      obtain rfl := Nat.succ.inj same
      cases k with
      | zero => simp [first]
      | succ i => exact alone i rfl

/-- Neither of a pair is alone. -/
theorem hasLoneSurrogate_pair {u v : Nat} {us : List Nat} (first : isHighSurrogate u = true)
    (second : isLowSurrogate v = true) : HasLoneSurrogate (u :: v :: us) ↔ HasLoneSurrogate us := by
  constructor
  · rintro ⟨k, lone⟩
    match k, lone with
    | 0, .inl ⟨_, alone⟩ =>
      exact absurd (show LowAt (v :: us) 0 from lowAt_zero.mpr second) alone
    | 0, .inr ⟨low, _⟩ =>
      rw [not_high_of_low (lowAt_zero.mp low)] at first
      cases first
    | 1, .inl ⟨high, _⟩ =>
      rw [highAt_succ, highAt_zero, not_high_of_low second] at high
      cases high
    | 1, .inr ⟨_, alone⟩ => exact absurd (highAt_zero.mpr first) (alone 0 rfl)
    | k + 2, .inl ⟨high, alone⟩ => exact ⟨k, .inl ⟨high, alone⟩⟩
    | k + 2, .inr ⟨low, alone⟩ =>
      exact ⟨k, .inr ⟨low, fun j same => alone (j + 2) (congrArg (· + 2) same)⟩⟩
  · rintro ⟨k, ⟨high, alone⟩ | ⟨low, alone⟩⟩
    · exact ⟨k + 2, .inl ⟨high, alone⟩⟩
    · refine ⟨k + 2, .inr ⟨low, fun j same => ?_⟩⟩
      obtain rfl := Nat.succ.inj same
      cases k with
      | zero => simp [not_high_of_low second]
      | succ i => exact alone i rfl

/-- Units are no characters if one of them is a surrogate without its other half. -/
theorem charsFrom?_eq_none {read : List Char} {us : List Nat} :
    charsFrom? read us = none ↔ HasLoneSurrogate us := by
  fun_induction charsFrom? read us with
  | case1 read =>
    refine ⟨nofun, ?_⟩
    rintro ⟨k, ⟨⟨u, found, _⟩, _⟩ | ⟨⟨u, found, _⟩, _⟩⟩ <;> cases found
  | case2 read u first v us second ih => rw [ih, hasLoneSurrogate_pair first second]
  | case3 read u first v us second =>
    refine ⟨fun _ => ⟨0, .inl ⟨highAt_zero.mpr first, ?_⟩⟩, fun _ => rfl⟩
    simpa using second
  | case4 read u first =>
    refine ⟨fun _ => ⟨0, .inl ⟨highAt_zero.mpr first, ?_⟩⟩, fun _ => rfl⟩
    simp [LowAt]
  | case5 read u us first second =>
    exact ⟨fun _ => ⟨0, .inr ⟨lowAt_zero.mpr second, nofun⟩⟩, fun _ => rfl⟩
  | case6 read u us first second ih =>
    rw [ih, hasLoneSurrogate_cons (eq_false_of_ne_true first) (eq_false_of_ne_true second)]

theorem ofUnits?_eq_none {us : List Nat} : ofUnits? us = none ↔ HasLoneSurrogate us := by
  rw [ofUnits?, Option.map_eq_none_iff, charsFrom?_eq_none]

/-! ## The characters of units -/

/-- A valid code point is that of its character. -/
theorem toNat_ofNat_of_valid {n : Nat} (valid : n.isValidChar) : (Char.ofNat n).toNat = n := by
  rw [Char.ofNat, dif_pos valid]
  rfl

/-- The character of a pair of surrogates has them as its units. -/
theorem charUnits_pairChar {high low : Nat} (first : isHighSurrogate high = true)
    (second : isLowSurrogate low = true) : charUnits (pairChar high low) = [high, low] := by
  simp only [isHighSurrogate, isLowSurrogate, Bool.and_eq_true, decide_eq_true_eq] at first second
  obtain ⟨above, eq_above⟩ : ∃ n, n = (high - 0xD800) * 0x400 + (low - 0xDC00) := ⟨_, rfl⟩
  have number : (pairChar high low).toNat = 0x10000 + above := by
    rw [pairChar, Nat.add_assoc, ← eq_above]
    exact toNat_ofNat_of_valid (.inr (by omega))
  rw [charUnits, number, if_neg (by omega), Nat.add_sub_cancel_left,
    show 0xD800 + above / 0x400 = high by omega, show 0xDC00 + above % 0x400 = low by omega]

/-- A unit that is no surrogate is the only one of its character. -/
theorem charUnits_ofNat {u : Nat} (small : u < 0x10000) (first : isHighSurrogate u = false)
    (second : isLowSurrogate u = false) : charUnits (Char.ofNat u) = [u] := by
  simp only [isHighSurrogate, isLowSurrogate, Bool.and_eq_false_iff, decide_eq_false_iff_not]
    at first second
  have valid : u.isValidChar := by
    unfold Nat.isValidChar
    omega
  rw [charUnits, toNat_ofNat_of_valid valid, if_pos small]

/-- The characters that are read have the units that were read. -/
theorem of_charsFrom? {read cs : List Char} {us : List Nat} (small : ∀ u ∈ us, u < 0x10000)
    (h : charsFrom? read us = some cs) :
    ∃ later, cs = read.reverse ++ later ∧ us = later.flatMap charUnits := by
  fun_induction charsFrom? read us with
  | case1 read =>
    cases h
    exact ⟨[], (List.append_nil _).symm, rfl⟩
  | case2 read u first v us second ih =>
    obtain ⟨later, rfl, rfl⟩ := ih (fun w mem => small w (by simp [mem])) h
    refine ⟨pairChar u v :: later, by simp, ?_⟩
    rw [List.flatMap_cons, charUnits_pairChar first second]
    rfl
  | case3 | case4 | case5 => cases h
  | case6 read u us first second ih =>
    obtain ⟨later, rfl, rfl⟩ := ih (fun w mem => small w (by simp [mem])) h
    refine ⟨Char.ofNat u :: later, by simp, ?_⟩
    rw [List.flatMap_cons, charUnits_ofNat (small u List.mem_cons_self) (eq_false_of_ne_true first)
      (eq_false_of_ne_true second)]
    rfl

/-- Units make the text whose units they are. -/
theorem ofUnits?_eq_some {us : List Nat} {s : String} (small : ∀ u ∈ us, u < 0x10000) :
    ofUnits? us = some s ↔ us = units s := by
  constructor
  · intro h
    obtain ⟨cs, found, rfl⟩ := Option.map_eq_some_iff.mp h
    obtain ⟨later, rfl, rfl⟩ := of_charsFrom? small found
    rw [units, String.toList_ofList]
  · rintro rfl
    exact ofUnits?_units s

namespace ModifiedUtf8

/-! ## The forms of units -/

/-- A block spells a unit of 16 bits. -/
theorem lt_of_spells {block : List UInt8} {u : Nat} (h : Spells block u) : u < 0x10000 := by
  cases h with
  | one _ low => omega
  | two least most second =>
    unfold Continues at second
    omega
  | three least most second third =>
    unfold Continues at second third
    omega

/-- Bytes are read as units only if they fall apart into forms of them. -/
theorem of_unitsFrom {pos : Nat} {read us : List Nat} {bytes : List UInt8}
    (h : unitsFrom pos read bytes = .ok us) : ∃ blocks later, bytes = blocks.flatten
      ∧ List.Forall₂ Spells blocks later ∧ us = read.reverse ++ later := by
  fun_induction unitsFrom pos read bytes with
  | case1 pos read =>
    cases h
    exact ⟨[], [], rfl, .nil, (List.append_nil _).symm⟩
  | case3 pos read a rest nonzero low ih =>
    obtain ⟨blocks, later, rfl, each, rfl⟩ := ih h
    have head := Spells.one (Nat.pos_of_ne_zero (mt null_iff.mpr nonzero)) (single_iff.mp low)
    exact ⟨_ :: blocks, _ :: later, rfl, .cons head each, by simp⟩
  | case5 pos read a _ _ opens b rest continued ih =>
    obtain ⟨blocks, later, rfl, each, rfl⟩ := ih h
    obtain ⟨least, most⟩ := opensTwo_iff.mp opens
    have second := continues_iff.mp continued
    have head := Spells.two least most second
    rw [value_two least most second] at head
    exact ⟨_ :: blocks, _ :: later, rfl, .cons head each, by simp⟩
  | case9 pos read a _ _ _ opens b continued c rest continued' ih =>
    obtain ⟨blocks, later, rfl, each, rfl⟩ := ih h
    obtain ⟨least, most⟩ := opensThree_iff.mp opens
    have second := continues_iff.mp continued
    have third := continues_iff.mp continued'
    have head := Spells.three least most second third
    rw [value_three least most second third] at head
    exact ⟨_ :: blocks, _ :: later, rfl, .cons head each, by simp⟩
  | _ => cases h

theorem small_of_spells {blocks : List (List UInt8)} {us : List Nat}
    (each : List.Forall₂ Spells blocks us) : ∀ u ∈ us, u < 0x10000 := by
  induction each with
  | nil => exact fun u mem => nomatch mem
  | cons head _ ih => exact List.forall_mem_cons.mpr ⟨lt_of_spells head, ih⟩

/-- Blocks are read as the text of their units, if these make one. -/
theorem decode_flatten {blocks : List (List UInt8)} {us : List Nat}
    (each : List.Forall₂ Spells blocks us) : decode blocks.flatten =
      match ofUnits? us with
      | some s => .ok s
      | none => .error .loneSurrogate := by
  rw [decode, unitsFrom_flatten 0 [] each]
  rfl

/-- Bytes that fall apart into forms of units are read unless a surrogate among the units has no
partner. -/
theorem decode_flatten_eq_error {blocks : List (List UInt8)} {us : List Nat}
    (each : List.Forall₂ Spells blocks us) :
    decode blocks.flatten = .error .loneSurrogate ↔ HasLoneSurrogate us := by
  rw [decode_flatten each, ← ofUnits?_eq_none]
  cases ofUnits? us with
  | none => exact ⟨fun _ => rfl, fun _ => rfl⟩
  | some s => exact ⟨nofun, nofun⟩

/-- They are read as a text if they spell its units. -/
theorem decode_flatten_eq_ok {blocks : List (List UInt8)} {us : List Nat} {s : String}
    (each : List.Forall₂ Spells blocks us) : decode blocks.flatten = .ok s ↔ us = units s := by
  rw [decode_flatten each, ← ofUnits?_eq_some (small_of_spells each)]
  cases ofUnits? us with
  | none => exact ⟨nofun, nofun⟩
  | some t => rw [Except.ok.injEq, Option.some.injEq]

/-- A text is read from the bytes that are made of blocks for its units, and from no others.
-/
theorem decode_eq_ok {bytes : List UInt8} {s : String} : decode bytes = .ok s ↔
    ∃ blocks, bytes = blocks.flatten ∧ List.Forall₂ Spells blocks (units s) := by
  constructor
  · intro h
    have read : ∃ us, unitsFrom 0 [] bytes = .ok us := by
      rw [decode] at h
      split at h
      · cases h
      · exact ⟨_, ‹_›⟩
    obtain ⟨us, found⟩ := read
    obtain ⟨blocks, later, rfl, each, _⟩ := of_unitsFrom found
    obtain rfl := (decode_flatten_eq_ok each).mp h
    exact ⟨blocks, rfl, each⟩
  · rintro ⟨blocks, rfl, each⟩
    exact (decode_flatten_eq_ok each).mpr rfl

/-- However bytes fall apart into forms of units, there are as many as the string has units. -/
theorem length_blocks {blocks : List (List UInt8)} {s : String} (h : decode blocks.flatten = .ok s)
    (forms : ∀ block ∈ blocks, ∃ u, Spells block u) : blocks.length = (units s).length := by
  obtain ⟨us, each⟩ := exists_forall₂ forms
  rw [each.length_eq, (decode_flatten_eq_ok each).mp h]

/-! ## The shortest form -/

/-- Any form of a unit but the one that is written is longer. -/
theorem eq_encodeUnit_or_length_lt {block : List UInt8} {u : Nat} (h : Spells block u) :
    block = encodeUnit u ∨ (encodeUnit u).length < block.length := by
  cases h with
  | @one a positive low =>
    left
    rw [encodeUnit, if_pos (by simpa using ⟨positive, low⟩), UInt8.ofNat_toNat]
  | @two a b least most second =>
    unfold Continues at second
    obtain ⟨u, eq_u⟩ : ∃ u, u = (a.toNat - 0xC0) * 0x40 + (b.toNat - 0x80) := ⟨_, rfl⟩
    rw [← eq_u, encodeUnit]
    split
    · exact .inr (Nat.lt_succ_self 1)
    · left
      rw [if_pos (by omega), show 0xC0 + u / 0x40 = a.toNat by omega,
        show 0x80 + u % 0x40 = b.toNat by omega, UInt8.ofNat_toNat, UInt8.ofNat_toNat]
  | @three a b c least most second third =>
    unfold Continues at second third
    obtain ⟨u, eq_u⟩ : ∃ u, u = (a.toNat - 0xE0) * 0x1000 + (b.toNat - 0x80) * 0x40
      + (c.toNat - 0x80) := ⟨_, rfl⟩
    rw [← eq_u, encodeUnit]
    split
    · exact .inr (Nat.lt_add_of_pos_right Nat.two_pos)
    · split
      · exact .inr (Nat.lt_succ_self 2)
      · left
        rw [show 0xE0 + u / 0x1000 = a.toNat by omega,
          show 0x80 + u / 0x40 % 0x40 = b.toNat by omega,
          show 0x80 + u % 0x40 = c.toNat by omega, UInt8.ofNat_toNat, UInt8.ofNat_toNat,
          UInt8.ofNat_toNat]

/-- The form that is written is shorter than any other. -/
theorem length_encode_lt {bytes : List UInt8} {s : String} (h : decode bytes = .ok s)
    (other : bytes ≠ encode s) : (encode s).length < bytes.length := by
  obtain ⟨blocks, rfl, each⟩ := decode_eq_ok.mp h
  exact (flatten_eq_or_length_lt (each.imp fun _ _ => eq_encodeUnit_or_length_lt)).resolve_left other

/-- A string is read from the form that is written for it and from longer ones: from all bytes
that fall apart into forms of its units. -/
theorem decode_grammar :
    (∀ s, decode (encode s) = .ok s ∧ 0 ∉ encode s
      ∧ ∀ bytes, decode bytes = .ok s → bytes ≠ encode s → (encode s).length < bytes.length)
    ∧ (∀ bytes s, decode bytes = .ok s ↔
      ∃ blocks, bytes = blocks.flatten ∧ List.Forall₂ Spells blocks (units s))
    ∧ (∀ (blocks : List (List UInt8)) s, decode blocks.flatten = .ok s →
      (∀ block ∈ blocks, ∃ u, Spells block u) → blocks.length = (units s).length)
    ∧ ∀ blocks us, List.Forall₂ Spells blocks us →
      (decode blocks.flatten = .error .loneSurrogate ↔ HasLoneSurrogate us) :=
  ⟨fun s => ⟨decode_encode s, zero_not_mem_encode s, fun _ => length_encode_lt⟩,
    fun _ _ => decode_eq_ok, fun _ _ => length_blocks, fun _ _ => decode_flatten_eq_error⟩

/-- An `A` in two bytes where one would do, and a character beyond the basic plane, are read as
three units; its first surrogate alone is refused. -/
theorem decode_grammar_longer :
    decode [0xC1, 0x81, 0xED, 0xA0, 0xBD, 0xED, 0xB8, 0x80] = .ok "A😀"
      ∧ (encode "A😀").length < 8
      ∧ 3 = (units "A😀").length
      ∧ decode [0xED, 0xA0, 0xBD] = .error .loneSurrogate := by
  have read : decode [0xC1, 0x81, 0xED, 0xA0, 0xBD, 0xED, 0xB8, 0x80] = .ok "A😀" := by rfl
  have latin : Spells [0xC1, 0x81] 0x41 := .two (by decide) (by decide) (by decide)
  have high : Spells [0xED, 0xA0, 0xBD] 0xD83D :=
    .three (by decide) (by decide) (by decide) (by decide)
  have low : Spells [0xED, 0xB8, 0x80] 0xDE00 :=
    .three (by decide) (by decide) (by decide) (by decide)
  refine ⟨read, (decode_grammar.1 _).2.2 _ read (by decide), ?_, ?_⟩
  · refine decode_grammar.2.2.1 [[0xC1, 0x81], [0xED, 0xA0, 0xBD], [0xED, 0xB8, 0x80]] _ read ?_
    simpa using ⟨⟨_, latin⟩, ⟨_, high⟩, ⟨_, low⟩⟩
  · refine (decode_grammar.2.2.2 [[0xED, 0xA0, 0xBD]] [0xD83D] (.cons high .nil)).mpr ?_
    exact ⟨0, .inl ⟨highAt_zero.mpr rfl, nofun⟩⟩

end ModifiedUtf8

end StubJar.Text
