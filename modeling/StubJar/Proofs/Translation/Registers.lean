import StubJar.Proofs.Dalvik.LastWrites
import StubJar.Translation.Body

/-!
# What registers are known to hold

Writing a register forgets the other half of what the register held, and nothing else
(`Registers.getElem?_write`). So a load leaves the registers that it does not write as they
were, but for the pairs that reached into them (`overwrites_load`), and after any list of
loads the registers hold exactly what was written last: a constant of 32 bits just where a
narrow load left it, one of 64 bits just where both of its halves are still there
(`reflects_loads`).
-/

namespace StubJar.Translation

open StubJar.Dalvik

/-! ## One write -/

/-- The register with the other half of what is held in a register. -/
def Held.otherHalf? (r : Nat) : Held → Option Nat
  | narrow _ => none
  | wide _ => some (r + 1)
  | upperHalf => if 0 < r then some (r - 1) else none

/-- The register that shares a constant with a register. -/
def Registers.partner? (rs : Registers) (r : Nat) : Option Nat :=
  match rs[r]? with
  | some held => held.otherHalf? r
  | none => none

/-- Of a register that shares a constant with another one, the other shares it too. -/
def Registers.Paired (rs : Registers) : Prop :=
  ∀ r s, rs.partner? r = some s → rs.partner? s = some r

/-- All as before outside of the registers that are written, but for constants that reached
into them. -/
def Overwrites (written : List Nat) (rs rs' : Registers) : Prop :=
  ∀ s ∉ written, ∀ held, rs'[s]? = some held ↔
    rs[s]? = some held ∧ ∀ t ∈ written, held.otherHalf? s ≠ some t

section Writes

variable {rs rs' : Registers} {written : List Nat}

/-- The other half of a register is that of what it holds. -/
theorem Registers.partner?_eq {r : Nat} {held : Held} (found : rs[r]? = some held) :
    rs.partner? r = held.otherHalf? r := by
  rw [Registers.partner?, found]

/-- So it is known from what it holds. -/
theorem Registers.partner?_eq_some {r s : Nat} :
    rs.partner? r = some s ↔ ∃ held, rs[r]? = some held ∧ held.otherHalf? r = some s := by
  constructor
  · intro shares
    unfold Registers.partner? at shares
    split at shares
    · rename_i held found
      exact ⟨held, found, shares⟩
    · cases shares
  · rintro ⟨held, found, shares⟩
    rw [Registers.partner?_eq found, shares]

/-- A write forgets the other half of what the register held. -/
theorem Registers.getElem?_write (rs : Registers) (r s : Nat) (held : Held) :
    (rs.write r held)[s]? =
      if r = s then some held else if rs.partner? r = some s then none else rs[s]? := by
  have written : (rs.insert r held)[s]? = if r = s then some held else rs[s]? := by
    rw [Std.HashMap.getElem?_insert]
    by_cases same : r = s
    · rw [if_pos same, if_pos (beq_iff_eq.mpr same)]
    · rw [if_neg same, if_neg (mt beq_iff_eq.mp same)]
  have forgotten (t : Nat) (apart : t ≠ r) : ((rs.insert r held).erase t)[s]?
      = if r = s then some held else if some t = some s then none else rs[s]? := by
    rw [Std.HashMap.getElem?_erase, written]
    by_cases same : t = s
    · rw [if_pos (beq_iff_eq.mpr same), if_neg (same ▸ apart.symm), if_pos (congrArg some same)]
    · rw [if_neg (mt beq_iff_eq.mp same), if_neg (mt Option.some.inj same)]
  have kept : (rs.insert r held)[s]?
      = if r = s then some held else if none = some s then none else rs[s]? := by
    rw [written, if_neg (show ¬ none = some s from nofun)]
  unfold Registers.write
  cases found : rs[r]? with
  | none =>
    rw [Registers.partner?, found]
    exact kept
  | some old =>
    rw [Registers.partner?_eq found]
    cases old with
    | narrow v => exact kept
    | wide v => exact forgotten (r + 1) (Nat.succ_ne_self r)
    | upperHalf =>
      rw [Held.otherHalf?]
      by_cases positive : 0 < r
      · simp only [if_pos positive]
        exact forgotten (r - 1) (Nat.ne_of_lt (Nat.sub_one_lt_of_lt positive))
      · simp only [if_neg positive]
        exact kept

/-- Nothing overwrites nothing. -/
theorem Overwrites.nil (rs : Registers) : Overwrites [] rs rs :=
  fun _ _ _ => ⟨fun found => ⟨found, nofun⟩, And.left⟩

/-- One more register is written. -/
theorem Overwrites.write (h : Overwrites written rs rs') (paired : rs.Paired) {r : Nat}
    (fresh : r ∉ written) (held : Held) : Overwrites (written ++ [r]) rs (rs'.write r held) := by
  intro s other found
  rw [List.mem_append, List.mem_singleton, not_or] at other
  -- outside of what is written, the register has the partner that it had before
  have partner : rs'.partner? r = some s ↔ rs.partner? s = some r := by
    constructor
    · intro shares
      obtain ⟨held, now, half⟩ := Registers.partner?_eq_some.mp shares
      have before := ((h r fresh held).mp now).1
      exact paired r s (Registers.partner?_eq_some.mpr ⟨held, before, half⟩)
    · intro shares
      obtain ⟨held, before, half⟩ := Registers.partner?_eq_some.mp (paired s r shares)
      have apart : ∀ t ∈ written, held.otherHalf? r ≠ some t := by
        rintro t mem same
        obtain rfl := Option.some.inj (half.symm.trans same)
        exact other.1 mem
      exact Registers.partner?_eq_some.mpr ⟨held, (h r fresh held).mpr ⟨before, apart⟩, half⟩
  rw [Registers.getElem?_write, if_neg (Ne.symm other.2)]
  split
  · rename_i forgotten
    have shares := partner.mp forgotten
    refine ⟨nofun, fun ⟨before, apart⟩ => ?_⟩
    rw [Registers.partner?_eq before] at shares
    exact absurd shares (apart r (List.mem_append_right _ (List.mem_singleton_self r)))
  · rename_i kept
    rw [h s other.1]
    refine and_congr_right fun before => ⟨fun apart t mem => ?_, fun apart t mem => ?_⟩
    · rcases List.mem_append.mp mem with old | last
      · exact apart t old
      · rw [List.mem_singleton.mp last, ← Registers.partner?_eq before]
        exact fun shares => kept (partner.mpr shares)
    · exact apart t (List.mem_append_left _ mem)

end Writes

/-! ## Loads -/

/-- What a load leaves in the registers. -/
def Registers.load (rs : Registers) : Dalvik.Instruction → Registers
  | .const4 r v => rs.write r (.narrow v.toInt32)
  | .const16 r v => rs.write r (.narrow v.toInt32)
  | .constWide16 r v => Registers.write (rs.write r (.wide v.toInt64)) (r + 1) .upperHalf
  | _ => rs

/-- What the load puts into a register. -/
def Leaves (i : Dalvik.Instruction) (r : Nat) : Held → Prop
  | .narrow v => i.narrow? = some v
  | .wide v => ∃ l, i = .constWide16 r l ∧ l.toInt64 = v
  | .upperHalf => ∃ s l, r = s + 1 ∧ i = .constWide16 s l

/-- The registers hold what the loads have left there. -/
structure Reflects (loads : List Dalvik.Instruction) (rs : Registers) : Prop where
  narrow : ∀ (r : Nat) v, rs[r]? = some (.narrow v) ↔ NarrowAt loads r v
  wide : ∀ (r : Nat) v, rs[r]? = some (.wide v) ↔ PairAt loads r v
  upper : ∀ r : Nat, rs[r]? = some .upperHalf ↔ ∃ s v, r = s + 1 ∧ PairAt loads s v

section Loads

variable {rs : Registers} {loads : List Dalvik.Instruction} {i : Dalvik.Instruction}

/-- A write overwrites its register. -/
theorem overwrites_one (paired : rs.Paired) (r : Nat) (held : Held) :
    Overwrites [r] rs (rs.write r held) := (Overwrites.nil rs).write paired List.not_mem_nil held

/-- A load overwrites the registers that it writes. -/
theorem overwrites_load (paired : rs.Paired) (load : i.isLoad = true) :
    Overwrites i.writes rs (rs.load i) := by
  cases i with
  | const4 r v | const16 r v => exact overwrites_one paired r _
  | constWide16 r v =>
    have apart : r + 1 ∉ [r] := fun mem => Nat.succ_ne_self r (List.mem_singleton.mp mem)
    exact (overwrites_one paired r _).write paired apart _
  | _ => cases load

/-- What a load leaves in a register is what it writes there. -/
theorem load_written (paired : rs.Paired) (load : i.isLoad = true) {r : Nat} (mem : r ∈ i.writes)
    (held : Held) : (rs.load i)[r]? = some held ↔ Leaves i r held := by
  cases i with
  | const4 s v | const16 s v =>
    obtain rfl := List.mem_singleton.mp mem
    rw [Registers.load, Registers.getElem?_write, if_pos rfl]
    cases held <;> simp [Leaves, Dalvik.Instruction.narrow?]
  | constWide16 s v =>
    rw [Registers.load, Registers.getElem?_write]
    rcases List.mem_cons.mp mem with rfl | mem
    · -- what was next to the register does not reach into it any more
      have apart : (rs.write r (.wide v.toInt64)).partner? (r + 1) ≠ some r := by
        intro shares
        obtain ⟨beside, found, half⟩ := Registers.partner?_eq_some.mp shares
        have other : r + 1 ∉ [r] := fun mem => Nat.succ_ne_self r (List.mem_singleton.mp mem)
        exact ((overwrites_one paired r _ _ other beside).mp found).2 r (List.mem_singleton_self r) half
      rw [if_neg (Nat.succ_ne_self r), if_neg apart, Registers.getElem?_write, if_pos rfl]
      cases held with
      | upperHalf =>
        simp only [Leaves, Option.some.injEq, reduceCtorEq, false_iff, not_exists, not_and]
        rintro t l above same
        cases same
        exact Nat.succ_ne_self r above.symm
      | _ => simp [Leaves, Dalvik.Instruction.narrow?]
    · obtain rfl := List.mem_singleton.mp mem
      rw [if_pos rfl]
      cases held <;> simp [Leaves, Dalvik.Instruction.narrow?]
  | _ => cases load

/-- Registers that reflect loads are paired. -/
theorem Reflects.paired (h : Reflects loads rs) : rs.Paired := by
  intro r s shares
  obtain ⟨held, found, half⟩ := Registers.partner?_eq_some.mp shares
  cases held with
  | narrow v => cases half
  | wide v =>
    cases half
    have above := (h.upper (r + 1)).mpr ⟨r, v, rfl, (h.wide r v).mp found⟩
    exact Registers.partner?_eq_some.mpr ⟨_, above, rfl⟩
  | upperHalf =>
    obtain ⟨t, v, rfl, pair⟩ := (h.upper r).mp found
    cases half
    exact Registers.partner?_eq_some.mpr ⟨_, (h.wide t v).mpr pair, rfl⟩

/-- A load keeps the registers and the loads together. -/
theorem Reflects.load (h : Reflects loads rs) (load : i.isLoad = true) :
    Reflects (loads ++ [i]) (rs.load i) := by
  have outside := overwrites_load h.paired load
  have inside {r : Nat} (mem : r ∈ i.writes) := load_written h.paired load mem
  have writes_wide {r : Nat} {l : Int16} (wide : i = .constWide16 r l) :
      r ∈ i.writes ∧ r + 1 ∈ i.writes := by
    rw [wide]
    exact ⟨List.mem_cons_self, List.mem_cons_of_mem _ List.mem_cons_self⟩
  refine ⟨fun r v => ?_, fun r v => ?_, fun r => ?_⟩
  · rw [narrowAt_append]
    by_cases mem : r ∈ i.writes
    · simp [inside mem, Leaves, mem]
    · simp [outside r mem, h.narrow, Held.otherHalf?, mem]
  · rw [pairAt_append]
    by_cases mem : r ∈ i.writes
    · simp [inside mem, Leaves, mem]
    · have none : ¬ ∃ l, i = .constWide16 r l ∧ l.toInt64 = v :=
        fun ⟨l, wide, _⟩ => mem (writes_wide wide).1
      rw [outside r mem, h.wide]
      simp only [Held.otherHalf?, mem, none, ne_eq, Option.some.injEq, not_false_eq_true, true_and,
        false_or]
      rw [and_comm]
      refine and_congr_left fun _ => ⟨fun apart above => apart _ above rfl, ?_⟩
      rintro apart t written rfl
      exact apart written
  · simp only [pairAt_append]
    by_cases mem : r ∈ i.writes
    · rw [inside mem]
      constructor
      · rintro ⟨s, l, above, wide⟩
        exact ⟨s, _, above, .inl ⟨l, wide, rfl⟩⟩
      · rintro ⟨s, v, rfl, ⟨l, wide, _⟩ | ⟨_, beside, _⟩⟩
        · exact ⟨s, l, rfl, wide⟩
        · exact absurd mem beside
    · rw [outside r mem]
      constructor
      · rintro ⟨found, apart⟩
        obtain ⟨s, v, rfl, pair⟩ := (h.upper r).mp found
        exact ⟨s, v, rfl, .inr ⟨fun written => apart s written rfl, mem, pair⟩⟩
      · rintro ⟨s, v, rfl, ⟨l, wide, _⟩ | ⟨below, _, pair⟩⟩
        · exact absurd (writes_wide wide).2 mem
        · refine ⟨(h.upper (s + 1)).mpr ⟨s, v, rfl, pair⟩, fun t written half => below ?_⟩
          cases half
          exact written

/-- After all of the loads, the registers hold what they have left there. -/
theorem reflects_loads (only : ∀ i ∈ loads, i.isLoad = true) :
    Reflects loads (loads.foldl Registers.load {}) := by
  induction loads using List.reverseRecOn with
  | nil =>
    refine ⟨fun r v => ?_, fun r v => ?_, fun r => ?_⟩
    · simp [not_narrowAt_nil]
    · simp [not_pairAt_nil]
    · simp [not_pairAt_nil]
  | append_singleton loads i ih =>
    rw [List.foldl_append]
    exact (ih fun j mem => only j (List.mem_append_left _ mem)).load
      (only i (List.mem_append_right _ (List.mem_singleton_self i)))

end Loads

end StubJar.Translation
