import Mathlib.Algebra.Ring.Nat
import StubJar.Dalvik.Instruction

/-!
# Running instructions

The registers of a frame hold words of 32 bits; a pair holds its lower word first. The
instructions run one after another until the first return, and there is no result where
one of them touches a register outside of the frame (`run`).

A step leaves every register alone but those that it writes (`step_other`), and so does a
run (`run_other`).
-/

namespace StubJar.Dalvik

/-- The words in the registers of a frame. -/
abbrev Frame := List UInt32

/-- What is returned, by the kind of the return. -/
inductive Answer where
  | nothing
  | word (w : UInt32)
  | pair (w : UInt64)
  /-- A reference, which is null if the word is zero. -/
  | reference (w : UInt32)
deriving DecidableEq, Repr

/-- How many registers the answer takes. -/
def Answer.width : Answer → Nat
  | nothing => 0
  | word _ | reference _ => 1
  | pair _ => 2

/-- The lower word of a pair. -/
def lowerWord (w : UInt64) : UInt32 := UInt32.ofNat w.toNat

/-- The upper word of a pair. -/
def upperWord (w : UInt64) : UInt32 := UInt32.ofNat (w.toNat / 2 ^ 32)

/-- The pair of two words. -/
def joined (lower upper : UInt32) : UInt64 := UInt64.ofNat (lower.toNat + 2 ^ 32 * upper.toNat)

/-- A wide value is put together from its two words. -/
theorem joined_words (w : UInt64) : joined (lowerWord w) (upperWord w) = w := by
  have small := w.toNat_lt
  apply UInt64.toNat_inj.mp
  rw [joined, lowerWord, upperWord, UInt64.toNat_ofNat', UInt32.toNat_ofNat', UInt32.toNat_ofNat']
  omega

namespace Instruction

/-- The registers that the instruction reads. -/
def reads : Instruction → List Register
  | return32 r | returnObject r => [r]
  | returnWide r => [r, r + 1]
  | _ => []

/-- The registers that the instruction writes. -/
def writes : Instruction → List Register
  | const4 r _ | const16 r _ => [r]
  | constWide16 r _ => [r, r + 1]
  | _ => []

/-- Whether the instruction loads a constant; it returns otherwise. -/
def isLoad : Instruction → Bool
  | const4 .. | const16 .. | constWide16 .. => true
  | _ => false

end Instruction

/-- The frame with another word in a register that it has. -/
def Frame.write (f : Frame) (r : Register) (w : UInt32) : Option Frame :=
  if r < f.length then some (f.set r w) else none

/-- The frame behind an instruction, and the answer if the instruction returns. Literals
are extended by their sign. -/
def step (f : Frame) : Instruction → Option (Frame × Option Answer)
  | .returnVoid => some (f, some .nothing)
  | .return32 r => do return (f, some (.word (← f[r]?)))
  | .returnWide r => do return (f, some (.pair (joined (← f[r]?) (← f[r + 1]?))))
  | .returnObject r => do return (f, some (.reference (← f[r]?)))
  | .const4 r v => do return (← f.write r v.toInt32.toUInt32, none)
  | .const16 r v => do return (← f.write r v.toInt32.toUInt32, none)
  | .constWide16 r v => do
    let lower ← f.write r (lowerWord v.toInt64.toUInt64)
    return (← Frame.write lower (r + 1) (upperWord v.toInt64.toUInt64), none)

/-- The frame behind the first return, and what it answers; without a return, the frame
behind all instructions. -/
def run : List Instruction → Frame → Option (Frame × Option Answer)
  | [], f => some (f, none)
  | i :: is, f =>
    match step f i with
    | some (g, none) => run is g
    | result => result

/-- Whether each register that is read is among those written or was written before. -/
def readsWritten (written : List Register) : List Instruction → Bool
  | [] => true
  | i :: is => i.reads.all (· ∈ written) && readsWritten (written ++ i.writes) is

/-! ## One step -/

section Step

variable {f g : Frame} {r s : Register} {w : UInt32} {i : Instruction} {x : Option Answer}

/-- A write succeeds inside the frame. -/
theorem Frame.write_eq_some : f.write r w = some g ↔ r < f.length ∧ f.set r w = g := by
  rw [Frame.write]
  split
  · rename_i inside
    simp only [inside, true_and, Option.some.injEq]
  · rename_i outside
    simp only [outside, false_and, reduceCtorEq]

/-- So inside it can always be done. -/
theorem Frame.exists_write (inside : r < f.length) (w : UInt32) : ∃ g, f.write r w = some g :=
  ⟨_, Frame.write_eq_some.mpr ⟨inside, rfl⟩⟩

/-- Writing a register leaves the others alone. -/
theorem Frame.write_other (h : f.write s w = some g) (other : r ≠ s) : g[r]? = f[r]? := by
  obtain ⟨_, rfl⟩ := Frame.write_eq_some.mp h
  exact List.getElem?_set_ne (Ne.symm other)

/-- What was written is read back. -/
theorem Frame.write_self (h : f.write r w = some g) : g[r]? = some w := by
  obtain ⟨inside, rfl⟩ := Frame.write_eq_some.mp h
  exact List.getElem?_set_self inside

/-- A write leaves the size of the frame. -/
theorem Frame.length_write (h : f.write r w = some g) : g.length = f.length := by
  obtain ⟨_, rfl⟩ := Frame.write_eq_some.mp h
  exact List.length_set

/-- A step leaves the registers alone that it does not write. -/
theorem step_other (h : step f i = some (g, x)) (other : r ∉ i.writes) : g[r]? = f[r]? := by
  cases i with
  | returnVoid =>
    cases h
    rfl
  | return32 s | returnObject s =>
    obtain ⟨_, _, same⟩ := Option.bind_eq_some_iff.mp h
    cases same
    rfl
  | returnWide s =>
    obtain ⟨_, _, rest⟩ := Option.bind_eq_some_iff.mp h
    obtain ⟨_, _, same⟩ := Option.bind_eq_some_iff.mp rest
    cases same
    rfl
  | const4 s v | const16 s v =>
    obtain ⟨_, written, same⟩ := Option.bind_eq_some_iff.mp h
    cases same
    exact Frame.write_other written (List.ne_of_not_mem_cons other)
  | constWide16 s v =>
    obtain ⟨_, lower, rest⟩ := Option.bind_eq_some_iff.mp h
    obtain ⟨_, upper, same⟩ := Option.bind_eq_some_iff.mp rest
    cases same
    rw [Frame.write_other upper (List.ne_of_not_mem_cons (List.not_mem_of_not_mem_cons other)),
      Frame.write_other lower (List.ne_of_not_mem_cons other)]

end Step

/-! ## Runs -/

/-- A run leaves the registers alone that none of its instructions writes. -/
theorem run_other {is : List Instruction} {f g : Frame} {x : Option Answer} {r : Register}
    (h : run is f = some (g, x)) (other : ∀ i ∈ is, r ∉ i.writes) : g[r]? = f[r]? := by
  induction is generalizing f with
  | nil =>
    cases h
    rfl
  | cons i is ih =>
    rw [run] at h
    split at h
    · rename_i next stepped
      rw [ih h fun j mem => other j (List.mem_cons_of_mem _ mem),
        step_other stepped (other i List.mem_cons_self)]
    · exact step_other h (other i List.mem_cons_self)

end StubJar.Dalvik
