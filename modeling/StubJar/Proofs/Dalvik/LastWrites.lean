import Mathlib.Data.List.Induction
import StubJar.Proofs.Dalvik.Execution

/-!
# What loads leave in registers

A constant of 32 bits is in a register that was last written by a narrow load
(`NarrowAt`), one of 64 bits in two registers that were last written by one and the same
wide load (`PairAt`): a later write to either of them destroys the pair.

Both are followed along a list of loads from its end (`narrowAt_append`,
`pairAt_append`). A run of the loads leaves the words of these constants in the frame,
whatever was there before (`run_loads`).
-/

namespace StubJar.Dalvik

/-- The constant of 32 bits that the instruction loads. -/
def Instruction.narrow? : Instruction → Option Int32
  | const4 _ v => some v.toInt32
  | const16 _ v => some v.toInt32
  | _ => none

/-- The load at the position is the last one that writes the register. -/
structure LastWrittenBy (loads : List Instruction) (r : Register) (k : Nat) (i : Instruction) :
    Prop where
  stands : loads[k]? = some i
  writes : r ∈ i.writes
  last : ∀ l, k < l → ∀ j, loads[l]? = some j → r ∉ j.writes

/-- The register was last written by a narrow load of the constant. -/
def NarrowAt (loads : List Instruction) (r : Register) (v : Int32) : Prop :=
  ∃ k i, LastWrittenBy loads r k i ∧ i.narrow? = some v

/-- The register and the next one were last written by one wide load of the constant. -/
def PairAt (loads : List Instruction) (r : Register) (v : Int64) : Prop :=
  ∃ k l, LastWrittenBy loads r k (.constWide16 r l) ∧ LastWrittenBy loads (r + 1) k (.constWide16 r l)
    ∧ l.toInt64 = v

section Contents

variable {loads : List Instruction} {i j : Instruction} {r : Register} {k : Nat}

theorem not_lastWrittenBy_nil : ¬ LastWrittenBy [] r k i := by
  intro h
  cases h.stands

/-- The last write to a register is that of the last load that writes it. -/
theorem lastWrittenBy_append : LastWrittenBy (loads ++ [i]) r k j ↔
    (k = loads.length ∧ j = i ∧ r ∈ i.writes) ∨ (r ∉ i.writes ∧ LastWrittenBy loads r k j) := by
  constructor
  · rintro ⟨stands, writes, last⟩
    by_cases before : k < loads.length
    · refine .inr ⟨last _ before i List.getElem?_concat_length, ?_, writes, fun l later j found => ?_⟩
      · rwa [List.getElem?_append_left before] at stands
      · have inside := (List.getElem?_eq_some_iff.mp found).1
        exact last l later j (by rwa [List.getElem?_append_left inside])
    · obtain rfl : k = loads.length := by
        have inside := (List.getElem?_eq_some_iff.mp stands).1
        rw [List.length_append, List.length_singleton] at inside
        omega
      rw [List.getElem?_concat_length] at stands
      cases stands
      exact .inl ⟨rfl, rfl, writes⟩
  · rintro (⟨rfl, rfl, writes⟩ | ⟨other, stands, writes, last⟩)
    · refine ⟨List.getElem?_concat_length, writes, fun l later j found => ?_⟩
      have inside := (List.getElem?_eq_some_iff.mp found).1
      rw [List.length_append, List.length_singleton] at inside
      omega
    · have inside := (List.getElem?_eq_some_iff.mp stands).1
      refine ⟨by rwa [List.getElem?_append_left inside], writes, fun l later j found => ?_⟩
      rw [List.getElem?_append] at found
      split at found
      · exact last l later j found
      · obtain rfl := List.mem_singleton.mp (List.mem_of_getElem? found)
        exact other

theorem not_narrowAt_nil {v : Int32} : ¬ NarrowAt [] r v := by
  rintro ⟨_, _, written, _⟩
  exact not_lastWrittenBy_nil written

theorem not_pairAt_nil {v : Int64} : ¬ PairAt [] r v := by
  rintro ⟨_, _, written, _⟩
  exact not_lastWrittenBy_nil written

/-- The number that a register holds is that of the last load that writes it. -/
theorem narrowAt_append {v : Int32} : NarrowAt (loads ++ [i]) r v ↔
    (r ∈ i.writes ∧ i.narrow? = some v) ∨ (r ∉ i.writes ∧ NarrowAt loads r v) := by
  simp only [NarrowAt, lastWrittenBy_append]
  constructor
  · rintro ⟨k, j, ⟨_, rfl, writes⟩ | ⟨other, written⟩, holds⟩
    · exact .inl ⟨writes, holds⟩
    · exact .inr ⟨other, k, j, written, holds⟩
  · rintro (⟨writes, holds⟩ | ⟨other, k, j, written, holds⟩)
    · exact ⟨_, i, .inl ⟨rfl, rfl, writes⟩, holds⟩
    · exact ⟨k, j, .inr ⟨other, written⟩, holds⟩

/-- So is the pair, unless one half was written since. -/
theorem pairAt_append {v : Int64} : PairAt (loads ++ [i]) r v ↔
    (∃ l, i = .constWide16 r l ∧ l.toInt64 = v)
      ∨ (r ∉ i.writes ∧ r + 1 ∉ i.writes ∧ PairAt loads r v) := by
  simp only [PairAt, lastWrittenBy_append]
  constructor
  · rintro ⟨k, l, ⟨_, same, _⟩ | ⟨other, lower⟩, ⟨last, _, _⟩ | ⟨beside, upper⟩, holds⟩
    · exact .inl ⟨l, same.symm, holds⟩
    · exact .inl ⟨l, same.symm, holds⟩
    · -- what was written before the last load was not written by it
      have inside := (List.getElem?_eq_some_iff.mp lower.stands).1
      omega
    · exact .inr ⟨other, beside, k, l, lower, upper, holds⟩
  · rintro (⟨l, rfl, holds⟩ | ⟨other, beside, k, l, lower, upper, holds⟩)
    · have both : r ∈ (Instruction.constWide16 r l).writes
          ∧ r + 1 ∈ (Instruction.constWide16 r l).writes :=
        ⟨List.mem_cons_self, List.mem_cons_of_mem _ List.mem_cons_self⟩
      exact ⟨_, l, .inl ⟨rfl, rfl, both.1⟩, .inl ⟨rfl, rfl, both.2⟩, holds⟩
    · exact ⟨k, l, .inr ⟨other, lower⟩, .inr ⟨beside, upper⟩, holds⟩

end Contents

/-! ## Runs of loads -/

/-- The frame holds the words of the constants that the loads have left in registers. -/
structure Mirrors (g : Frame) (loads : List Instruction) : Prop where
  narrow : ∀ r v, NarrowAt loads r v → g[r]? = some v.toUInt32
  lower : ∀ r v, PairAt loads r v → g[r]? = some (lowerWord v.toUInt64)
  upper : ∀ r v, PairAt loads r v → g[r + 1]? = some (upperWord v.toUInt64)

section Runs

variable {f g : Frame} {i : Instruction} {loads is : List Instruction}

/-- A load puts its constant into the registers that it writes, if the frame has them. -/
theorem step_load (load : i.isLoad = true) (room : ∀ r ∈ i.writes, r < f.length) :
    ∃ g, step f i = some (g, none) ∧ g.length = f.length
      ∧ (∀ r ∈ i.writes, ∀ v, i.narrow? = some v → g[r]? = some v.toUInt32)
      ∧ ∀ r l, i = .constWide16 r l → g[r]? = some (lowerWord l.toInt64.toUInt64)
          ∧ g[r + 1]? = some (upperWord l.toInt64.toUInt64) := by
  cases i with
  | const4 s v | const16 s v =>
    obtain ⟨g, written⟩ := Frame.exists_write (room s List.mem_cons_self) v.toInt32.toUInt32
    refine ⟨g, Option.bind_eq_some_iff.mpr ⟨g, written, rfl⟩, Frame.length_write written, ?_, nofun⟩
    intro r mem w loaded
    obtain rfl := List.mem_singleton.mp mem
    obtain rfl := Option.some.inj loaded
    exact Frame.write_self written
  | constWide16 s l =>
    obtain ⟨g, lower⟩ := Frame.exists_write (room s List.mem_cons_self)
      (lowerWord l.toInt64.toUInt64)
    have above := room (s + 1) (List.mem_cons_of_mem _ List.mem_cons_self)
    rw [← Frame.length_write lower] at above
    obtain ⟨h, upper⟩ := Frame.exists_write above (upperWord l.toInt64.toUInt64)
    have stepped : step f (.constWide16 s l) = some (h, none) :=
      Option.bind_eq_some_iff.mpr ⟨g, lower, Option.bind_eq_some_iff.mpr ⟨h, upper, rfl⟩⟩
    refine ⟨h, stepped, (Frame.length_write upper).trans (Frame.length_write lower), nofun, ?_⟩
    intro r l same
    cases same
    refine ⟨?_, Frame.write_self upper⟩
    rw [Frame.write_other upper (Nat.ne_of_lt (Nat.lt_succ_self _))]
    exact Frame.write_self lower
  | _ => cases load

/-- Nothing is returned before the loads are done. -/
theorem run_append (h : run loads f = some (g, none)) : run (loads ++ is) f = run is g := by
  induction loads generalizing f with
  | nil =>
    cases h
    rfl
  | cons i loads ih =>
    rw [run] at h
    rw [List.cons_append, run]
    cases stepped : step f i with
    | none =>
      rw [stepped] at h
      cases h
    | some result =>
      obtain ⟨next, _ | x⟩ := result
      · rw [stepped] at h
        exact ih h
      · rw [stepped] at h
        cases h

/-- Loads run to their end, and the frame shows their last writes. -/
theorem run_loads (only : ∀ i ∈ loads, i.isLoad = true)
    (room : ∀ i ∈ loads, ∀ r ∈ i.writes, r < f.length) :
    ∃ g, run loads f = some (g, none) ∧ g.length = f.length ∧ Mirrors g loads := by
  induction loads using List.reverseRecOn with
  | nil =>
    exact ⟨f, rfl, rfl, fun _ _ at' => absurd at' not_narrowAt_nil,
      fun _ _ at' => absurd at' not_pairAt_nil, fun _ _ at' => absurd at' not_pairAt_nil⟩
  | append_singleton loads i ih =>
    have mem : i ∈ loads ++ [i] := List.mem_append_right _ (List.mem_singleton_self i)
    obtain ⟨g, ran, length, mirrors⟩ := ih
      (fun j hj => only j (List.mem_append_left _ hj)) (fun j hj => room j (List.mem_append_left _ hj))
    obtain ⟨h, stepped, same, narrow, wide⟩ := step_load (f := g) (only i mem) fun r hr =>
      length ▸ room i mem r hr
    refine ⟨h, ?_, same.trans length, ?_, ?_, ?_⟩
    · rw [run_append ran, run, stepped]
      rfl
    · intro r v contents
      rcases narrowAt_append.mp contents with ⟨writes, loaded⟩ | ⟨other, before⟩
      · exact narrow r writes v loaded
      · rw [step_other stepped other]
        exact mirrors.narrow r v before
    · intro r v contents
      rcases pairAt_append.mp contents with ⟨l, loaded, rfl⟩ | ⟨other, _, before⟩
      · exact (wide r l loaded).1
      · rw [step_other stepped other]
        exact mirrors.lower r v before
    · intro r v contents
      rcases pairAt_append.mp contents with ⟨l, loaded, rfl⟩ | ⟨_, other, before⟩
      · exact (wide r l loaded).2
      · rw [step_other stepped other]
        exact mirrors.upper r v before

end Runs

end StubJar.Dalvik
