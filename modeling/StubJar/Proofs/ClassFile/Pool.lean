import Mathlib.Algebra.Ring.Int.Defs
import Mathlib.Algebra.Ring.Nat
import Mathlib.Data.List.Forall2
import StubJar.ClassFile.Attribute

/-!
# Putting constants into a pool

`p.Holds n c` says that the constant `c` stands at slot `n`. A pool only grows, so
what it holds once it holds for good (`Holds.mono`), and a constant is found at
the slot that asking for it gives (`PoolM.slot_spec`).

`Meets pre x post faults` says of a computation on pools: from a well-formed
pool with `pre` it gives a result and a grown pool with `post`, or one of
`faults`. Such statements compose along the steps of a computation
(`Meets.bind`), and what a pool holds before a step can be carried over it
(`Meets.frame`).
-/

namespace StubJar.ClassFile

/-- The constant at a slot of a list of constants of which the first stands at
`first`. -/
def constantAt (first : Nat) : List Constant → Nat → Option Constant
  | [], _ => none
  | c :: cs, n => if n = first then some c else constantAt (first + c.width) cs n

/-- How many slots a list of constants takes. -/
def slotsOf (cs : List Constant) : Nat := (cs.map Constant.width).sum

/-- Every constant takes a slot. -/
theorem width_pos (c : Constant) : 0 < c.width := by
  cases c <;> exact Nat.succ_pos _

/-- A constant stands among the slots. -/
theorem constantAt_lt {cs : List Constant} {first n : Nat} {c : Constant}
    (h : constantAt first cs n = some c) : first ≤ n ∧ n < first + slotsOf cs := by
  induction cs generalizing first with
  | nil => cases h
  | cons d cs ih =>
    have positive := width_pos d
    rw [constantAt] at h
    simp only [slotsOf, List.map_cons, List.sum_cons]
    split at h
    · omega
    · have inside := ih h
      simp only [slotsOf] at inside
      omega

/-- It stays where it is when more follow. -/
theorem constantAt_append {cs : List Constant} {first n : Nat} {c : Constant}
    (h : constantAt first cs n = some c) (more : List Constant) :
    constantAt first (cs ++ more) n = some c := by
  induction cs generalizing first with
  | nil => cases h
  | cons d cs ih =>
    rw [List.cons_append, constantAt]
    rw [constantAt] at h
    split at h
    · rename_i here
      rw [if_pos here, h]
    · rename_i later
      rw [if_neg later, ih h]

/-- The next one stands behind all others. -/
theorem constantAt_next (first : Nat) (cs : List Constant) (c : Constant) :
    constantAt first (cs ++ [c]) (first + slotsOf cs) = some c := by
  induction cs generalizing first with
  | nil => exact if_pos rfl
  | cons d cs ih =>
    have positive := width_pos d
    have further := ih (first + d.width)
    rw [List.cons_append, constantAt, if_neg (by simp only [slotsOf, List.map_cons, List.sum_cons]; omega),
      slotsOf, List.map_cons, List.sum_cons, ← Nat.add_assoc]
    exact further

namespace ConstantPool

/-- The constant stands at the slot. -/
def Holds (p : ConstantPool) (n : Nat) (c : Constant) : Prop :=
  constantAt 1 p.constants.toList n = some c

/-- What a constant refers to is a text of the pool. -/
def Resolves (p : ConstantPool) : Constant → Prop
  | .classRef n | .stringRef n => ∃ s, p.Holds n (.utf8 s)
  | _ => True

/-- The slots that the pool knows are those at which its constants stand, and
there is room for each of them. -/
structure WellFormed (p : ConstantPool) : Prop where
  next : p.next = 1 + slotsOf p.constants.toList
  room : p.next ≤ limit
  slots : ∀ c n, p.slots[c]? = some n → p.Holds n c
  resolved : ∀ c ∈ p.constants.toList, p.Resolves c

/-- The pool with nothing but further constants. -/
def Grown (p q : ConstantPool) : Prop := ∃ more, q.constants.toList = p.constants.toList ++ more

/-- A pool has grown from itself. -/
theorem Grown.refl (p : ConstantPool) : Grown p p := ⟨[], (List.append_nil _).symm⟩

/-- What has grown twice has grown. -/
theorem Grown.trans {p q r : ConstantPool} (first : Grown p q) (second : Grown q r) : Grown p r := by
  obtain ⟨more, first⟩ := first
  obtain ⟨further, second⟩ := second
  exact ⟨more ++ further, by rw [second, first, List.append_assoc]⟩

/-- Slots keep their constants when a pool grows. -/
theorem Holds.mono {p q : ConstantPool} {n : Nat} {c : Constant} (h : p.Holds n c)
    (grown : Grown p q) : q.Holds n c := by
  obtain ⟨more, same⟩ := grown
  rw [Holds, same]
  exact constantAt_append h more

/-- Once true of a pool, it stays true as the pool grows. -/
def Persistent (P : ConstantPool → Prop) : Prop := ∀ p q, Grown p q → P p → P q

/-- What holds of all pools stays so. -/
theorem Persistent.true : Persistent fun _ => True := fun _ _ _ => id

/-- Two things that stay so stay so together. -/
theorem Persistent.and {P Q : ConstantPool → Prop} (first : Persistent P) (second : Persistent Q) :
    Persistent fun p => P p ∧ Q p := fun p q grown =>
  And.imp (first p q grown) (second p q grown)

/-- That a slot holds a constant stays so. -/
theorem Persistent.holds (n : Nat) (c : Constant) : Persistent fun p => p.Holds n c :=
  fun _ _ grown found => found.mono grown

/-- What stays so of each stays so of all. -/
theorem Persistent.forall₂ {α β : Type} {R : α → β → ConstantPool → Prop}
    (each : ∀ a b, Persistent (R a b)) (as : List α) (bs : List β) :
    Persistent fun p => List.Forall₂ (fun a b => R a b p) as bs :=
  fun p q grown found => found.imp fun a b => each a b p q grown

/-- A constant that leads somewhere does so when the pool grows. -/
theorem Resolves.mono {p q : ConstantPool} {c : Constant} (h : p.Resolves c) (grown : Grown p q) :
    q.Resolves c := by
  cases c with
  | classRef n | stringRef n => exact h.imp fun _ found => found.mono grown
  | _ => trivial

/-- The empty pool is well formed. -/
theorem wellFormed_empty : WellFormed empty := by
  refine ⟨rfl, by decide, fun c n found => ?_, fun c mem => absurd mem List.not_mem_nil⟩
  rw [empty, Std.HashMap.getElem?_empty] at found
  cases found

/-- A pool stays so with a constant that leads somewhere, and holds it in the next slot. -/
theorem wellFormed_push {p : ConstantPool} {c : Constant} (wf : WellFormed p)
    (room : p.next + c.width ≤ limit) (resolves : p.Resolves c) :
    WellFormed (p.push c) ∧ Grown p (p.push c) ∧ (p.push c).Holds p.next c := by
  have grown : Grown p (p.push c) := ⟨[c], Array.toList_push⟩
  have here : (p.push c).Holds p.next c := by
    rw [Holds, push, Array.toList_push, wf.next]
    exact constantAt_next 1 _ c
  refine ⟨⟨?_, room, fun d n found => ?_, fun d mem => ?_⟩, grown, here⟩
  · rw [push, Array.toList_push, slotsOf, List.map_append, List.sum_append]
    simp only [wf.next, slotsOf, List.map_cons, List.map_nil, List.sum_cons, List.sum_nil]
    omega
  · rw [push, Std.HashMap.getElem?_insert] at found
    split at found
    · rename_i same
      obtain rfl := eq_of_beq same
      cases found
      exact here
    · exact (wf.slots d n found).mono grown
  · rw [push, Array.toList_push, List.mem_append, List.mem_singleton] at mem
    rcases mem with old | rfl
    · exact (wf.resolved d old).mono grown
    · exact resolves.mono grown

end ConstantPool

open ConstantPool

/-- A result leaves the pool as it is. -/
theorem PoolM.pure_run {ε α : Type} (a : α) (p : ConstantPool) :
    (pure a : PoolM ε α) p = (.ok a, p) := rfl

/-- A step and what is done with its result, from one pool to the next. -/
theorem PoolM.bind_run {ε α β : Type} (x : PoolM ε α) (f : α → PoolM ε β) (p : ConstantPool) :
    (x >>= f) p = match x p with
      | (.ok a, q) => f a q
      | (.error fault, q) => (.error fault, q) := by
  change ExceptT.bindCont f (x p).1 (x p).2 = _
  obtain ⟨_ | a, q⟩ := x p
  · rfl
  · rfl

/-- Two steps succeed one behind the other, the second with the pool of the first. -/
theorem PoolM.bind_eq_ok {ε α β : Type} {x : PoolM ε α} {f : α → PoolM ε β} {p r : ConstantPool}
    {b : β} : (x >>= f) p = (.ok b, r) ↔ ∃ a q, x p = (.ok a, q) ∧ f a q = (.ok b, r) := by
  rw [PoolM.bind_run]
  constructor
  · intro run
    split at run
    · rename_i a q first
      exact ⟨a, q, first, run⟩
    · cases run
  · rintro ⟨a, q, first, second⟩
    rw [first]
    exact second

/-- From a well-formed pool with `pre` the computation gives a result and a
grown pool with `post`, or one of the faults. -/
def Meets {ε α : Type} (pre : ConstantPool → Prop) (x : PoolM ε α)
    (post : α → ConstantPool → Prop) (faults : ε → Prop) : Prop :=
  ∀ p, WellFormed p → pre p →
    match x p with
    | (.ok a, q) => WellFormed q ∧ Grown p q ∧ post a q
    | (.error fault, _) => faults fault

namespace Meets

variable {ε δ α β : Type} {pre : ConstantPool → Prop} {post : α → ConstantPool → Prop}
  {faults : ε → Prop}

/-- A result meets what holds of it. -/
theorem pure {a : α} (holds : ∀ p, pre p → post a p) :
    Meets pre (Pure.pure a : PoolM ε α) post faults :=
  fun p wf before => ⟨wf, .refl p, holds p before⟩

/-- A fault that is allowed meets everything. -/
theorem throw {fault : ε} (allowed : faults fault) :
    Meets pre (MonadExcept.throw fault : PoolM ε α) post faults := fun _ _ _ => allowed

/-- Two steps meet what the second does behind the first. -/
theorem bind {x : PoolM ε α} {f : α → PoolM ε β} {mid : α → ConstantPool → Prop}
    {post : β → ConstantPool → Prop} (first : Meets pre x mid faults)
    (second : ∀ a, Meets (mid a) (f a) post faults) : Meets pre (x >>= f) post faults := by
  intro p wf before
  have one := first p wf before
  rw [PoolM.bind_run]
  generalize x p = result at one ⊢
  obtain ⟨_ | a, q⟩ := result
  · exact one
  · obtain ⟨wf', grown, middle⟩ := one
    have two := second a q wf' middle
    dsimp only
    generalize f a q = result at two ⊢
    obtain ⟨_ | b, r⟩ := result
    · exact two
    · exact ⟨two.1, grown.trans two.2.1, two.2.2⟩

/-- What is met can be asked for less, with more known before. -/
theorem mono {x : PoolM ε α} {pre' : ConstantPool → Prop} {post' : α → ConstantPool → Prop}
    {faults' : ε → Prop} (h : Meets pre x post faults) (before : ∀ p, pre' p → pre p)
    (after : ∀ a p, post a p → post' a p) (fewer : ∀ fault, faults fault → faults' fault) :
    Meets pre' x post' faults' := by
  intro p wf holds
  have one := h p wf (before p holds)
  generalize x p = result at one ⊢
  obtain ⟨_ | a, q⟩ := result
  · exact fewer _ one
  · exact ⟨one.1, one.2.1, after a q one.2.2⟩

/-- What a growing pool keeps is carried over a computation. -/
theorem frame {x : PoolM ε α} {kept : ConstantPool → Prop} (h : Meets pre x post faults)
    (keeps : Persistent kept) :
    Meets (fun p => pre p ∧ kept p) x (fun a q => post a q ∧ kept q) faults := by
  intro p wf before
  have one := h p wf before.1
  generalize x p = result at one ⊢
  obtain ⟨_ | a, q⟩ := result
  · exact one
  · exact ⟨one.1, one.2.1, one.2.2, keeps p q one.2.1 before.2⟩

/-- A step that needs nothing of the pool, after which all that was known is
known still. -/
theorem step {x : PoolM ε α} {f : α → PoolM ε β} {mid : α → ConstantPool → Prop}
    {post : β → ConstantPool → Prop} (keeps : Persistent pre)
    (first : Meets (fun _ => True) x mid faults)
    (second : ∀ a, Meets (fun p => mid a p ∧ pre p) (f a) post faults) :
    Meets pre (x >>= f) post faults :=
  ((first.frame keeps).mono (fun _ holds => ⟨trivial, holds⟩) (fun _ _ => id) fun _ => id).bind
    second

/-- A fault may be renamed to another that is allowed. -/
theorem mapFault {x : PoolM ε α} (f : ε → δ) {faults' : δ → Prop} (h : Meets pre x post faults)
    (renamed : ∀ fault, faults fault → faults' (f fault)) :
    Meets pre (PoolM.mapFault f x) post faults' := by
  intro p wf before
  have one := h p wf before
  rw [PoolM.mapFault]
  generalize x p = result at one ⊢
  obtain ⟨_ | a, q⟩ := result
  · exact renamed _ one
  · exact one

/-- What holds of each step of a traversal holds of all results in the end. -/
theorem mapM {f : α → PoolM ε β} {post : α → β → ConstantPool → Prop}
    (keeps : ∀ a b, Persistent (post a b)) {items : List α}
    (each : ∀ a ∈ items, Meets (fun _ => True) (f a) (post a) faults) :
    Meets (fun _ => True) (items.mapM f)
      (fun bs q => List.Forall₂ (fun a b => post a b q) items bs) faults := by
  induction items with
  | nil =>
    rw [List.mapM_nil]
    exact pure fun _ _ => .nil
  | cons a items ih =>
    rw [List.mapM_cons]
    refine (each a List.mem_cons_self).bind fun b => ?_
    refine (ih fun c hc => each c (List.mem_cons_of_mem _ hc)).step (keeps a b) fun bs => ?_
    exact pure fun _ holds => .cons holds.2 holds.1

end Meets

/-! ## Constants and their slots -/

/-- The pool is full. -/
def Fault.IsOverflow (fault : Fault) : Prop := ∃ slot, fault = .poolOverflow slot

namespace ConstantPool

/-- The slot is that of a class of the name. -/
def HoldsClass (p : ConstantPool) (n : Nat) (name : String) : Prop :=
  ∃ text, p.Holds n (.classRef text) ∧ p.Holds text (.utf8 name)

/-- Slots keep their classes when a pool grows. -/
theorem HoldsClass.mono {p q : ConstantPool} {n : Nat} {name : String} (h : p.HoldsClass n name)
    (grown : Grown p q) : q.HoldsClass n name :=
  h.imp fun _ found => ⟨found.1.mono grown, found.2.mono grown⟩

/-- Slots take two bytes. -/
theorem Holds.lt {p : ConstantPool} {n : Nat} {c : Constant} (h : p.Holds n c)
    (wf : WellFormed p) : n < 2 ^ 16 := by
  have inside := (constantAt_lt h).2
  have room := wf.room
  rw [← wf.next] at inside
  simp only [limit] at room
  omega

end ConstantPool

namespace PoolM

variable {pre : ConstantPool → Prop}

/-- A constant stands at the slot that asking for it gives, unless the pool is
full. -/
theorem slot_spec (c : Constant) (resolves : ∀ p, pre p → p.Resolves c) :
    Meets pre (slot c) (fun n p => p.Holds n c) Fault.IsOverflow := by
  intro p wf before
  rw [slot]
  cases known : p.slots[c]? with
  | some n => exact ⟨wf, .refl p, wf.slots c n known⟩
  | none =>
    by_cases full : limit < p.next + c.width
    · simp only [if_pos full]
      exact ⟨p.next, rfl⟩
    · simp only [if_neg full]
      exact wellFormed_push wf (Nat.le_of_not_lt full) (resolves p before)

/-- A text gets a slot that holds it. -/
theorem utf8_spec (s : String) :
    Meets pre (utf8 s) (fun n p => p.Holds n (.utf8 s)) Fault.IsOverflow :=
  slot_spec _ fun _ _ => trivial

theorem integer_spec (v : Int) :
    Meets pre (integer v) (fun n p => p.Holds n (.integer (Int32.ofInt v))) Fault.IsOverflow :=
  slot_spec _ fun _ _ => trivial

/-- A constant that refers to a text is put behind it. -/
theorem reference_spec {make : Nat → Constant} {s : String}
    (refers : ∀ (p : ConstantPool) n, p.Holds n (.utf8 s) → p.Resolves (make n)) :
    Meets pre (do slot (make (← utf8 s)))
      (fun n p => ∃ text, p.Holds n (make text) ∧ p.Holds text (.utf8 s)) Fault.IsOverflow := by
  refine (utf8_spec s).bind fun text => ?_
  have found : Meets (fun p => p.Holds text (.utf8 s)) (slot (make text)) _ _ :=
    slot_spec _ fun p => refers p text
  refine (found.frame (.holds text _)).mono (fun _ stays => ⟨stays, stays⟩) ?_ fun _ => id
  exact fun n p found => ⟨text, found⟩

theorem classRef_spec (name : String) :
    Meets pre (classRef name) (fun n p => p.HoldsClass n name) Fault.IsOverflow :=
  reference_spec fun _ _ found => ⟨name, found⟩

/-- So does a string, whose text has a slot too. -/
theorem stringRef_spec (s : String) :
    Meets pre (stringRef s) (fun n p => ∃ text, p.Holds n (.stringRef text) ∧ p.Holds text (.utf8 s))
      Fault.IsOverflow :=
  reference_spec fun _ _ found => ⟨s, found⟩

end PoolM

/-! ## Pools of given constants -/

namespace ConstantPool

/-- The pool of constants that are put into it one after another. -/
def ofConstants (cs : List Constant) : ConstantPool := cs.foldl push empty

/-- The empty pool is that of no constants. -/
theorem empty_eq_ofConstants : empty = ofConstants [] := rfl

/-- Constants that are added stand behind the others, and the slots of all others are known as
before. -/
theorem foldl_push (p : ConstantPool) (cs : List Constant) :
    (cs.foldl push p).constants.toList = p.constants.toList ++ cs
      ∧ (cs.foldl push p).next = p.next + slotsOf cs
      ∧ ∀ c ∉ cs, (cs.foldl push p).slots[c]? = p.slots[c]? := by
  induction cs generalizing p with
  | nil => exact ⟨(List.append_nil _).symm, rfl, fun _ _ => rfl⟩
  | cons c cs ih =>
    obtain ⟨constants, next, slots⟩ := ih (p.push c)
    rw [List.foldl_cons]
    refine ⟨?_, ?_, fun d fresh => ?_⟩
    · rw [constants, push, Array.toList_push, List.append_assoc, List.singleton_append]
    · rw [next, push, slotsOf, slotsOf, List.map_cons, List.sum_cons, Nat.add_assoc]
    · rw [List.mem_cons, not_or] at fresh
      rw [slots d fresh.2, push, Std.HashMap.getElem?_insert,
        if_neg fun same => fresh.1 (eq_of_beq same).symm]

/-- A pool of constants has these. -/
theorem constants_ofConstants (cs : List Constant) : (ofConstants cs).constants.toList = cs :=
  (foldl_push empty cs).1

end ConstantPool

/-- A constant that is not there is put into the pool. -/
theorem PoolM.slot_ofConstants {cs : List Constant} {c : Constant} (fresh : c ∉ cs)
    (room : 1 + slotsOf cs + c.width ≤ limit) :
    slot c (ofConstants cs) = (.ok (1 + slotsOf cs), ofConstants (cs ++ [c])) := by
  obtain ⟨_, next, slots⟩ := foldl_push empty cs
  have next : (ofConstants cs).next = 1 + slotsOf cs := next
  have missing : (ofConstants cs).slots[c]? = none :=
    (slots c fresh).trans Std.HashMap.getElem?_empty
  rw [slot, missing]
  dsimp only
  rw [next, if_neg (Nat.not_lt.mpr room), ofConstants, ofConstants, List.foldl_concat]

/-- A constant that is there once has the slot behind those in front of it. -/
theorem PoolM.slot_ofConstants_of_mem {cs : List Constant} {c : Constant} (known : c ∈ cs)
    (alone : c ∉ cs.drop (cs.idxOf c + 1)) :
    slot c (ofConstants cs) = (.ok (1 + slotsOf (cs.take (cs.idxOf c))), ofConstants cs) := by
  have split : cs = cs.take (cs.idxOf c) ++ c :: cs.drop (cs.idxOf c + 1) := by
    have here := List.drop_eq_getElem_cons (List.idxOf_lt_length_of_mem known)
    rw [List.getElem_idxOf] at here
    rw [← here, List.take_append_drop]
  have found : (ofConstants cs).slots[c]? = some (1 + slotsOf (cs.take (cs.idxOf c))) := by
    obtain ⟨_, next, _⟩ := foldl_push empty (cs.take (cs.idxOf c))
    have pool := congrArg ofConstants split
    rw [ofConstants, ofConstants, List.foldl_append, List.foldl_cons] at pool
    rw [ofConstants, pool, (foldl_push _ _).2.2 c alone, push, Std.HashMap.getElem?_insert_self, next]
    rfl
  rw [slot, found]

/-! ## Attributes and their names -/

/-- The attribute is one of the name. -/
def Attribute.Named (p : ConstantPool) (name : String) (a : Attribute) : Prop :=
  p.Holds a.name (.utf8 name)

/-- The attribute has a name, which is not that of a code attribute. -/
def Attribute.Plain (p : ConstantPool) (a : Attribute) : Prop :=
  ∃ name, a.Named p name ∧ name ≠ "Code"

/-- An attribute stays plain when a pool grows. -/
theorem Attribute.Plain.mono {p q : ConstantPool} {a : Attribute} (h : a.Plain p)
    (grown : Grown p q) : a.Plain q := h.imp fun _ found => ⟨Holds.mono found.1 grown, found.2⟩

/-- An attribute gets the name and the form of its contents. -/
theorem Attribute.of_spec {pre : ConstantPool → Prop} (c : Content) :
    Meets pre (Attribute.of c) (fun a p => a.Named p c.name ∧ a.info = c.encode) Fault.IsOverflow :=
  (PoolM.utf8_spec c.name).bind fun _ => Meets.pure fun _ found => ⟨found, rfl⟩

end StubJar.ClassFile
