import StubJar.Proofs.ClassFile.OperandStack
import StubJar.Translation.Body

/-!
# Pushing constants

A number that an instruction spells is pushed without the pool. Any other is pushed from its
slot, so there must be room for it unless the pool has it already (`HasRoom`), and two free
slots are room for every value (`hasRoom_of_two_slots`). Exactly then there is an instruction,
and it pushes the value in as few bytes as can be (`Supplies`).
-/

namespace StubJar.Translation

open StubJar.ClassFile StubJar.ClassFile.ConstantPool
open StubJar.ClassFile.Resolved (Literal Operand Puts)

variable {p : ConstantPool}

/-- The pool has the constant that the value is pushed from, or free slots for it. -/
def HasRoom (p : ConstantPool) (x : Operand) : Prop :=
  ∀ c, x.pooled? = some c → c ∈ p.constants.toList ∨ p.next + c.width ≤ limit

/-- Room for two slots is enough for every value. -/
theorem hasRoom_of_two_slots (room : p.next + 2 ≤ limit) (x : Operand) : HasRoom p x := by
  intro c _
  have few : c.width ≤ 2 := by cases c <;> simp [Constant.width]
  exact .inr (by omega)

/-- A constant that is there or fits has a slot. -/
theorem exists_slot (settled : Settled p) {c : Constant} (resolves : p.Resolves c)
    (fits : c ∈ p.constants.toList ∨ p.next + c.width ≤ limit) :
    ∃ n q, PoolM.slot c p = (.ok n, q) ∧ Settled q ∧ Grown p q ∧ q.Holds n c := by
  obtain ⟨n, found, run⟩ | ⟨fresh, room, run⟩ | ⟨fresh, full, _⟩ := settled.slot_cases c
  · exact ⟨n, p, run, settled, .refl p, found⟩
  · obtain ⟨_, grown, here⟩ := wellFormed_push settled.toWellFormed room resolves
    exact ⟨_, _, run, settled.push fresh room resolves, grown, here⟩
  · rcases fits with there | room
    · exact absurd there fresh
    · omega

/-- There is an instruction that pushes the value, behind nothing but further constants,
exactly if the pool has room. -/
structure Supplies (p : ConstantPool) (push : PoolM ClassFile.Fault ClassFile.Instruction)
    (x : Operand) : Prop where
  pushes : HasRoom p x → ∃ i q, push p = (.ok i, q) ∧ Settled q ∧ Grown p q ∧ Puts q i x
  room : ∀ i q, push p = (.ok i, q) → HasRoom p x

/-- No constant of the pool is needed. -/
theorem Supplies.pure (settled : Settled p) {i : ClassFile.Instruction} {x : Operand}
    (puts : Puts p i x) (spelled : x.pooled? = none) : Supplies p (return i) x := by
  have room : HasRoom p x := by
    intro c needed
    rw [spelled] at needed
    cases needed
  exact ⟨fun _ => ⟨i, p, rfl, settled, .refl p, puts⟩, fun _ _ _ => room⟩

/-- A constant of the pool is pushed from its slot. -/
theorem Supplies.of_slot (settled : Settled p) (c : Constant) (resolves : p.Resolves c)
    {make : Nat → ClassFile.Instruction} {x : Operand} (needed : x.pooled? = some c)
    (puts : ∀ q n, Settled q → q.Holds n c → Puts q (make n) x) :
    Supplies p (do return make (← PoolM.slot c)) x := by
  have room : HasRoom p x ↔ c ∈ p.constants.toList ∨ p.next + c.width ≤ limit := by
    unfold HasRoom
    rw [needed]
    simp only [Option.some.injEq, forall_eq']
  constructor
  · intro fits
    obtain ⟨n, q, run, settled', grown, here⟩ := exists_slot settled resolves (room.mp fits)
    exact ⟨make n, q, PoolM.bind_eq_ok.mpr ⟨n, q, run, rfl⟩, settled', grown, puts q n settled' here⟩
  · intro i q made
    obtain ⟨n, r, run, _⟩ := PoolM.bind_eq_ok.mp made
    rw [room]
    obtain ⟨_, found, _⟩ | ⟨_, fits, _⟩ | ⟨_, _, refused⟩ := settled.slot_cases c
    · exact .inl found.mem
    · exact .inr fits
    · rw [refused] at run
      cases run

/-- A number is supplied by the shortest push. -/
theorem intPush_supplies (settled : Settled p) (v : Int32) :
    Supplies p (intPush v) (.constant (.int v)) := by
  unfold intPush
  split
  · rename_i i chosen
    refine .pure settled (Resolved.puts_pushInt? settled.toWellFormed chosen) (if_pos ?_)
    exact Resolved.range_of_pushInt? chosen
  · rename_i missing
    obtain ⟨bare, large, range⟩ := Resolved.pushInt?_eq_none missing
    refine .of_slot settled (.integer v) trivial (if_neg range) fun q n settled' here => ?_
    exact Resolved.puts_ldc (l := .int v) settled' here rfl bare fun c same =>
      large c (Literal.int.inj same)

theorem floatPush_supplies (settled : Settled p) (bits : UInt32) :
    Supplies p (floatPush bits) (.constant (.float bits)) := by
  have wf := settled.toWellFormed
  unfold floatPush
  split
  · rename_i zero
    subst zero
    exact .pure settled (Resolved.puts_bare wf 0x0B rfl (by decide) rfl rfl) rfl
  split
  · rename_i one
    subst one
    exact .pure settled (Resolved.puts_bare wf 0x0C rfl (by decide) rfl rfl) rfl
  split
  · rename_i two
    subst two
    exact .pure settled (Resolved.puts_bare wf 0x0D rfl (by decide) rfl rfl) rfl
  · rename_i zero one two
    have bare : ¬ (Operand.constant (.float bits)).HasOpcode := by
      rintro (same | same | same)
      · exact zero same
      · exact one same
      · exact two same
    refine .of_slot settled (.float bits) trivial (if_neg bare) fun q n settled' here => ?_
    exact Resolved.puts_ldc (l := .float bits) settled' here rfl bare nofun

theorem longPush_supplies (settled : Settled p) (v : Int64) :
    Supplies p (longPush v) (.constant (.long v)) := by
  have wf := settled.toWellFormed
  unfold longPush
  split
  · rename_i zero
    subst zero
    exact .pure settled (Resolved.puts_bare wf 0x09 rfl (by decide) rfl rfl) rfl
  split
  · rename_i one
    subst one
    exact .pure settled (Resolved.puts_bare wf 0x0A rfl (by decide) rfl rfl) rfl
  · rename_i zero one
    have bare : ¬ (Operand.constant (.long v)).HasOpcode := by
      rintro (same | same)
      · exact zero same
      · exact one same
    refine .of_slot settled (.long v) trivial (if_neg bare) fun q n settled' here => ?_
    exact Resolved.puts_ldcWide (l := .long v) settled'.toWellFormed here rfl bare

theorem doublePush_supplies (settled : Settled p) (bits : UInt64) :
    Supplies p (doublePush bits) (.constant (.double bits)) := by
  have wf := settled.toWellFormed
  unfold doublePush
  split
  · rename_i zero
    subst zero
    exact .pure settled (Resolved.puts_bare wf 0x0E rfl (by decide) rfl rfl) rfl
  split
  · rename_i one
    subst one
    exact .pure settled (Resolved.puts_bare wf 0x0F rfl (by decide) rfl rfl) rfl
  · rename_i zero one
    have bare : ¬ (Operand.constant (.double bits)).HasOpcode := by
      rintro (same | same)
      · exact zero same
      · exact one same
    refine .of_slot settled (.double bits) trivial (if_neg bare) fun q n settled' here => ?_
    exact Resolved.puts_ldcWide (l := .double bits) settled'.toWellFormed here rfl bare

end StubJar.Translation
