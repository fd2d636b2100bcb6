import Mathlib.Data.Set.Function
import Mathlib.Order.Interval.Set.Defs
import StubJar.Proofs.Dalvik.Execution
import StubJar.Proofs.Stub.Refusals

/-!
# Renumbering keeps what instructions do

Instructions over the registers of a plan and the same instructions over the registers of
the frame return the same, and leave the same words in the registers, each under its own
number (`Plan.inFrame_simulates`). This holds of any instructions that stay inside of the plan,
not only of those of a stub.

An instruction names a pair by its lower register alone, so a pair has to be one in both
numberings: it must not lie half in the arguments and half behind them. A load is chosen
again for its new register, but both choices write the same word (`step_shortestLoad`).
With this a step keeps the frames alike (`Plan.Renumbered.step`), and so does a run.
-/

namespace StubJar.Dalvik

/-- The lower register of the pair that the instruction reads or writes. -/
def Instruction.pair? : Instruction → Option Register
  | .returnWide r | .constWide16 r _ => some r
  | _ => none

end StubJar.Dalvik

namespace StubJar.Stub

open StubJar.Dalvik

variable {p : Plan} {r : Nat}

/-! ## Numbers of registers -/

namespace Plan

/-- Arguments stand behind the result. -/
theorem frameRegister_argument (argument : r < p.ins) : p.frameRegister r = p.result + r := by
  rw [frameRegister, if_pos argument, Nat.add_comm]

/-- The registers behind the arguments come first. -/
theorem frameRegister_scratch (s : Register) : p.frameRegister (p.ins + s) = s := by
  rw [frameRegister, if_neg (Nat.not_lt.mpr (Nat.le_add_right p.ins s)), Nat.add_sub_cancel_left]

/-- The arguments move to the end and the registers behind them to the front, so every
register of the frame is that of one of the plan. -/
theorem bijOn_frameRegister (p : Plan) :
    Set.BijOn p.frameRegister (Set.Iio p.size) (Set.Iio p.size) := by
  have cases (r : Nat) : r < p.ins ∨ ∃ s, r = p.ins + s :=
    (Nat.lt_or_ge r p.ins).imp_right Nat.exists_eq_add_of_le
  refine ⟨fun r inside => ?_, fun r insideR s insideS same => ?_, fun s inside => ?_⟩
  · rcases cases r with argument | ⟨s, rfl⟩
    · rw [Set.mem_Iio, frameRegister_argument argument, size, Nat.add_comm]
      exact Nat.add_lt_add_right argument p.result
    · rw [Set.mem_Iio, frameRegister_scratch]
      exact Nat.lt_of_le_of_lt (Nat.le_add_left s p.ins) inside
  · rcases cases r with argumentR | ⟨i, rfl⟩ <;> rcases cases s with argumentS | ⟨j, rfl⟩
    · rw [frameRegister_argument argumentR, frameRegister_argument argumentS] at same
      exact Nat.add_left_cancel same
    · rw [frameRegister_argument argumentR, frameRegister_scratch] at same
      exact absurd (Nat.lt_of_add_lt_add_left insideS)
        (same ▸ Nat.not_lt.mpr (Nat.le_add_right _ r))
    · rw [frameRegister_argument argumentS, frameRegister_scratch] at same
      exact absurd (Nat.lt_of_add_lt_add_left insideR)
        (same ▸ Nat.not_lt.mpr (Nat.le_add_right _ s))
    · rw [frameRegister_scratch, frameRegister_scratch] at same
      rw [same]
  · rcases Nat.lt_or_ge s p.result with front | behind
    · exact ⟨p.ins + s, Nat.add_lt_add_left front p.ins, frameRegister_scratch s⟩
    · obtain ⟨r, rfl⟩ := Nat.exists_eq_add_of_le behind
      rw [Set.mem_Iio, size, Nat.add_comm] at inside
      have argument : r < p.ins := Nat.lt_of_add_lt_add_right inside
      exact ⟨r, Nat.lt_add_right p.result argument, frameRegister_argument argument⟩

/-- The registers of a pair stay next to each other if both are arguments, or neither is. -/
theorem frameRegister_succ (whole : r + 1 ≠ p.ins) :
    p.frameRegister (r + 1) = p.frameRegister r + 1 := by
  rcases Nat.lt_or_ge r p.ins with argument | behind
  · rw [frameRegister_argument argument,
      frameRegister_argument (Nat.lt_of_le_of_ne argument whole), Nat.add_assoc]
  · obtain ⟨s, rfl⟩ := Nat.exists_eq_add_of_le behind
    rw [Nat.add_assoc, frameRegister_scratch, frameRegister_scratch]

/-! ## Frames -/

/-- The frames have the registers of the plan, and the second has the words of the first
under the numbers that the registers have in the frame. -/
structure Renumbered (p : Plan) (f g : Frame) : Prop where
  planned : f.length = p.size
  framed : g.length = p.size
  words : ∀ r < p.size, g[p.frameRegister r]? = f[r]?

/-- Renumbering moves the arguments behind the other registers, and nothing else. -/
theorem renumbered_iff {f g : Frame} (planned : f.length = p.size) :
    p.Renumbered f g ↔ g = f.drop p.ins ++ f.take p.ins := by
  have split : ∀ r < p.size, (f.drop p.ins ++ f.take p.ins)[p.frameRegister r]? = f[r]? := by
    intro r inside
    have front : (f.drop p.ins).length = p.result := by
      rw [List.length_drop, planned, size, Nat.add_sub_cancel_left]
    by_cases argument : r < p.ins
    · rw [frameRegister_argument argument, ← front, List.getElem?_append_right (Nat.le_add_right _ _),
        Nat.add_sub_cancel_left, List.getElem?_take_of_lt argument]
    · obtain ⟨s, rfl⟩ := Nat.exists_eq_add_of_le (Nat.le_of_not_lt argument)
      rw [frameRegister_scratch, List.getElem?_append_left, List.getElem?_drop]
      rw [front]
      exact Nat.lt_of_add_lt_add_left inside
  have length : (f.drop p.ins ++ f.take p.ins).length = p.size := by
    rw [List.length_append, List.length_drop, List.length_take, planned, size]
    omega
  constructor
  · intro h
    apply List.ext_getElem?
    intro s
    by_cases inside : s < p.size
    · obtain ⟨r, insideR, rfl⟩ := p.bijOn_frameRegister.surjOn inside
      rw [h.words r insideR, split r insideR]
    · rw [List.getElem?_eq_none (h.framed ▸ Nat.le_of_not_lt inside),
        List.getElem?_eq_none (length ▸ Nat.le_of_not_lt inside)]
  · rintro rfl
    exact ⟨planned, length, split⟩

namespace Renumbered

variable {f g : Frame} {i : Instruction} {w : UInt32}

/-- A register that the plan has is read alike. -/
theorem read (h : p.Renumbered f g) (inside : r < p.size) :
    ∃ w, f[r]? = some w ∧ g[p.frameRegister r]? = some w := by
  have found : f[r]? = some _ := List.getElem?_eq_getElem (h.planned ▸ inside)
  exact ⟨_, found, (h.words r inside).trans found⟩

/-- A register that the plan has is written alike. -/
theorem write (h : p.Renumbered f g) (inside : r < p.size) (w : UInt32) :
    ∃ f' g', f.write r w = some f' ∧ g.write (p.frameRegister r) w = some g'
      ∧ p.Renumbered f' g' := by
  have bij := p.bijOn_frameRegister
  obtain ⟨f', written⟩ := Frame.exists_write (h.planned ▸ inside) w
  obtain ⟨g', written'⟩ := Frame.exists_write (f := g) (h.framed ▸ bij.mapsTo inside) w
  refine ⟨f', g', written, written', (Frame.length_write written).trans h.planned,
    (Frame.length_write written').trans h.framed, fun s insideS => ?_⟩
  by_cases same : s = r
  · rw [same, Frame.write_self written, Frame.write_self written']
  · have apart : p.frameRegister s ≠ p.frameRegister r := fun equal =>
      same (bij.injOn insideS inside equal)
    rw [Frame.write_other written same, Frame.write_other written' apart, h.words s insideS]

end Renumbered

end Plan

/-! ## Instructions -/

/-- Whether the short or the long load is chosen, the same word is written. -/
theorem step_shortestLoad (f : Frame) (r : Register) (v : Int16) :
    step f (shortestLoad r v) = step f (.const16 r v) := by
  rw [shortestLoad]
  split
  · rename_i short
    simp only [Bool.and_eq_true, decide_eq_true_eq, Int16.le_iff_toInt_le] at short
    have same : v.toInt8.toInt32 = v.toInt32 := by
      apply Int32.toInt_inj.mp
      rw [Int8.toInt_toInt32, Int16.toInt_toInt8, Int16.toInt_toInt32]
      have low : (-8 : Int16).toInt = -8 := rfl
      have high : (7 : Int16).toInt = 7 := rfl
      rw [Int.bmod_def]
      omega
    simp only [step, same]
  · rfl

/-- An instruction is renumbered to one that does the same to the renumbered frame. -/
theorem Plan.Renumbered.step {f g : Frame} {i : Instruction} (h : p.Renumbered f g)
    (inside : ∀ r ∈ i.reads ++ i.writes, r < p.size) (whole : ∀ r ∈ i.pair?, r + 1 ≠ p.ins) :
    ∃ f' g' x, Dalvik.step f i = some (f', x)
      ∧ Dalvik.step g (renumber p.frameRegister i) = some (g', x) ∧ p.Renumbered f' g' := by
  have load (r : Register) (v : Int16) (inside : r < p.size) :
      ∃ f' g', Dalvik.step f (.const16 r v) = some (f', none)
        ∧ Dalvik.step g (shortestLoad (p.frameRegister r) v) = some (g', none)
        ∧ p.Renumbered f' g' := by
    obtain ⟨f', g', written, written', after⟩ := h.write inside v.toInt32.toUInt32
    refine ⟨f', g', by simp [Dalvik.step, written], ?_, after⟩
    rw [step_shortestLoad]
    simp [Dalvik.step, written']
  cases i with
  | returnVoid => exact ⟨f, g, some .nothing, rfl, rfl, h⟩
  | return32 r =>
    obtain ⟨w, found, found'⟩ := h.read (inside r (by simp [Instruction.reads]))
    exact ⟨f, g, some (.word w), by simp [Dalvik.step, found],
      by simp [renumber, Dalvik.step, found'], h⟩
  | returnObject r =>
    obtain ⟨w, found, found'⟩ := h.read (inside r (by simp [Instruction.reads]))
    exact ⟨f, g, some (.reference w), by simp [Dalvik.step, found],
      by simp [renumber, Dalvik.step, found'], h⟩
  | returnWide r =>
    obtain ⟨lower, found, found'⟩ := h.read (inside r (by simp [Instruction.reads]))
    obtain ⟨upper, above, above'⟩ := h.read (inside (r + 1) (by simp [Instruction.reads]))
    rw [frameRegister_succ (whole r rfl)] at above'
    exact ⟨f, g, some (.pair (joined lower upper)), by simp [Dalvik.step, found, above],
      by simp [renumber, Dalvik.step, found', above'], h⟩
  | const4 r v =>
    obtain ⟨f', g', stepped, stepped', after⟩ :=
      load r v.toInt16 (inside r (by simp [Instruction.writes]))
    rw [Dalvik.step, Int8.toInt32_toInt16] at stepped
    exact ⟨f', g', none, stepped, stepped', after⟩
  | const16 r v =>
    obtain ⟨f', g', stepped, stepped', after⟩ := load r v (inside r (by simp [Instruction.writes]))
    exact ⟨f', g', none, stepped, stepped', after⟩
  | constWide16 r v =>
    obtain ⟨f₁, g₁, lower, lower', between⟩ :=
      h.write (inside r (by simp [Instruction.writes])) (lowerWord v.toInt64.toUInt64)
    obtain ⟨f₂, g₂, upper, upper', after⟩ :=
      between.write (inside (r + 1) (by simp [Instruction.writes])) (upperWord v.toInt64.toUInt64)
    rw [frameRegister_succ (whole r rfl)] at upper'
    exact ⟨f₂, g₂, none, by simp [Dalvik.step, lower, upper],
      by simp [renumber, Dalvik.step, lower', upper'], after⟩

/-- Step after step the frames stay alike, up to the same return. -/
theorem Plan.Renumbered.run {f g : Frame} {is : List Instruction} (h : p.Renumbered f g)
    (inside : ∀ i ∈ is, ∀ r ∈ i.reads ++ i.writes, r < p.size)
    (whole : ∀ i ∈ is, ∀ r ∈ i.pair?, r + 1 ≠ p.ins) :
    ∃ f' g' x, Dalvik.run is f = some (f', x)
      ∧ Dalvik.run (is.map (renumber p.frameRegister)) g = some (g', x) ∧ p.Renumbered f' g' := by
  induction is generalizing f g with
  | nil => exact ⟨f, g, none, rfl, rfl, h⟩
  | cons i is ih =>
    obtain ⟨f₁, g₁, x, stepped, stepped', between⟩ :=
      h.step (inside i List.mem_cons_self) (whole i List.mem_cons_self)
    rw [List.map_cons, Dalvik.run, stepped, Dalvik.run, stepped']
    cases x with
    | some x => exact ⟨f₁, g₁, some x, rfl, rfl, between⟩
    | none =>
      exact ih between (fun j mem => inside j (List.mem_cons_of_mem i mem))
        fun j mem => whole j (List.mem_cons_of_mem i mem)

/-- The registers of the frame are those of the plan, the arguments in their order at the
end. Instructions that touch only registers of the plan, and no pair of an argument and
another register, run through in both numberings: from frames that hold the same words, of
which there is one for each, they return the same and leave such frames. -/
theorem Plan.inFrame_simulates (p : Plan) :
    Set.BijOn p.frameRegister (Set.Iio p.size) (Set.Iio p.size)
      ∧ (∀ r < p.ins, p.frameRegister r = p.size - p.ins + r)
      ∧ (∀ f : Frame, f.length = p.size → ∃! g, p.Renumbered f g)
      ∧ ∀ is : List Instruction, (∀ i ∈ is, ∀ r ∈ i.reads ++ i.writes, r < p.size) →
        (∀ i ∈ is, ∀ r ∈ i.pair?, r + 1 ≠ p.ins) → ∀ f g, p.Renumbered f g →
        ∃ f' g' x, Dalvik.run is f = some (f', x)
          ∧ Dalvik.run (Draft.mk p is).inFrame g = some (g', x) ∧ p.Renumbered f' g' := by
  refine ⟨p.bijOn_frameRegister, fun r argument => ?_, fun f planned => ?_,
    fun is inside whole f g h => ?_⟩
  · rw [frameRegister_argument argument, size, Nat.add_sub_cancel_left]
  · exact ⟨_, (renumbered_iff planned).mpr rfl, fun g h => (renumbered_iff planned).mp h⟩
  · exact h.run inside whole

/-- Both loads are the other one in the frame: the argument leaves the registers that the
short load reaches, and the other register enters them. -/
theorem Plan.inFrame_simulates_exchanged :
    let d : Draft := ⟨⟨0, 16, 2⟩, [.const4 1 7, .const16 17 (-8), .constWide16 2 9, .returnWide 2]⟩
    d.inFrame = [.const16 17 7, .const4 15 (-8), .constWide16 0 9, .returnWide 0]
      ∧ ∃ f g x, Dalvik.run d.instructions (List.replicate 18 0) = some (f, x)
        ∧ Dalvik.run d.inFrame (List.replicate 18 0) = some (g, x) ∧ d.plan.Renumbered f g := by
  intro d
  refine ⟨by decide, ?_⟩
  obtain ⟨_, _, _, simulates⟩ := Plan.inFrame_simulates d.plan
  exact simulates d.instructions (by decide) (by decide) (List.replicate 18 0) _
    ((renumbered_iff (by decide)).mpr (by decide))

end StubJar.Stub
