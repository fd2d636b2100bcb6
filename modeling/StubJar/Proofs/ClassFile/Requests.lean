import StubJar.Proofs.ClassFile.Pool

/-!
# Asking a pool for constants

A pool is asked for one constant after another, and some of the requests are
refused. `poolAfter rs` is the pool behind a list of requests on a new pool and
`answerAt? rs i` what the request at position `i` was answered.

One invariant carries the laws: the pool knows the slot of exactly the constants
that it holds (`Settled`), so no constant stands in it twice. A request keeps the
invariant and only adds to the pool, whether it is served or refused
(`Settled.ask`); by induction so does a list of them (`settled_poolAfter`). What
was served stays served because pools only grow.
-/

namespace StubJar.ClassFile

/-! ## Where constants stand -/

/-- What stands in a slot was there before, or is the constant that was added. -/
theorem constantAt_append_cases {cs : List Constant} {first n : Nat} {c d : Constant}
    (h : constantAt first (cs ++ [c]) n = some d) :
    constantAt first cs n = some d ∨ n = first + slotsOf cs ∧ d = c := by
  induction cs generalizing first with
  | nil =>
    rw [List.nil_append, constantAt] at h
    split at h
    · rename_i here
      exact Or.inr ⟨here, (Option.some.inj h).symm⟩
    · cases h
  | cons b cs ih =>
    rw [List.cons_append, constantAt] at h
    rw [constantAt]
    split at h
    · rename_i here
      rw [if_pos here]
      exact Or.inl h
    · rename_i later
      rw [if_neg later]
      rcases ih h with found | ⟨last, same⟩
      · exact Or.inl found
      · refine Or.inr ⟨?_, same⟩
        rw [last, slotsOf, slotsOf, List.map_cons, List.sum_cons, Nat.add_assoc]

/-- Every constant has a slot. -/
theorem exists_constantAt {cs : List Constant} {c : Constant} (mem : c ∈ cs) (first : Nat) :
    ∃ n, constantAt first cs n = some c := by
  induction cs generalizing first with
  | nil => cases mem
  | cons b cs ih =>
    rcases List.mem_cons.mp mem with rfl | later
    · exact ⟨first, by rw [constantAt, if_pos rfl]⟩
    · obtain ⟨n, found⟩ := ih later (first + b.width)
      have behind := (constantAt_lt found).1
      have positive := width_pos b
      refine ⟨n, ?_⟩
      rw [constantAt, if_neg (by omega), found]

/-- What a slot holds is one of the constants. -/
theorem mem_of_constantAt {cs : List Constant} {first n : Nat} {c : Constant}
    (h : constantAt first cs n = some c) : c ∈ cs := by
  induction cs generalizing first with
  | nil => cases h
  | cons b cs ih =>
    rw [constantAt] at h
    split at h
    · obtain rfl := Option.some.inj h
      exact List.mem_cons_self
    · exact List.mem_cons_of_mem _ (ih h)

/-- A constant takes all of its slots. -/
theorem constantAt_apart {cs : List Constant} {first n m : Nat} {c d : Constant}
    (hc : constantAt first cs n = some c) (hd : constantAt first cs m = some d) (lt : n < m) :
    n + c.width ≤ m := by
  induction cs generalizing first with
  | nil => cases hc
  | cons b cs ih =>
    have behind_n := (constantAt_lt hc).1
    rw [constantAt] at hc hd
    rw [if_neg (by omega)] at hd
    split at hc
    · rename_i here
      obtain rfl := Option.some.inj hc
      have behind_m := (constantAt_lt hd).1
      omega
    · exact ih hc hd

namespace ConstantPool

variable {p q : ConstantPool}

/-- A slot holds one constant. -/
theorem Holds.unique {n : Nat} {c d : Constant} (hc : p.Holds n c) (hd : p.Holds n d) : c = d :=
  Option.some.inj (hc.symm.trans hd)

/-- It is one of the pool. -/
theorem Holds.mem {n : Nat} {c : Constant} (h : p.Holds n c) : c ∈ p.constants.toList :=
  mem_of_constantAt h

/-- Every constant of a pool has a slot. -/
theorem exists_holds {c : Constant} (mem : c ∈ p.constants.toList) : ∃ n, p.Holds n c :=
  exists_constantAt mem 1

/-- No constant stands at the second slot of another one. -/
theorem Holds.ne_second {n m : Nat} {c d : Constant} (hc : p.Holds n c) (hd : p.Holds m d)
    (wide : d.width = 2) : n ≠ m + 1 := by
  intro same
  have apart := constantAt_apart hd hc (by omega)
  omega

/-! ## The invariant -/

/-- The pool knows the slot of every constant that it holds. -/
structure Settled (p : ConstantPool) : Prop extends WellFormed p where
  known : ∀ c n, p.Holds n c → p.slots[c]? = some n

/-- The empty pool is settled. -/
theorem settled_empty : Settled empty := by
  refine ⟨wellFormed_empty, ?_⟩
  intro c n found
  cases found

namespace Settled

/-- In a settled pool a constant has one slot. -/
theorem same_slot (h : Settled p) {n m : Nat} {c : Constant} (hn : p.Holds n c)
    (hm : p.Holds m c) : n = m :=
  Option.some.inj ((h.known c n hn).symm.trans (h.known c m hm))

/-- A constant without a known slot is not there. -/
theorem slots_eq_none (h : Settled p) {c : Constant} :
    p.slots[c]? = none ↔ c ∉ p.constants.toList := by
  constructor
  · intro missing mem
    obtain ⟨n, found⟩ := exists_holds mem
    rw [h.known c n found] at missing
    cases missing
  · intro fresh
    cases known : p.slots[c]? with
    | none => rfl
    | some n => exact absurd (h.slots c n known).mem fresh

/-- A settled pool stays so with a new constant. -/
theorem push (h : Settled p) {c : Constant} (fresh : c ∉ p.constants.toList)
    (room : p.next + c.width ≤ limit) (resolves : p.Resolves c) : Settled (p.push c) := by
  refine ⟨(wellFormed_push h.toWellFormed room resolves).1, ?_⟩
  intro d n found
  rw [Holds, ConstantPool.push, Array.toList_push] at found
  rw [ConstantPool.push, Std.HashMap.getElem?_insert]
  rcases constantAt_append_cases found with old | ⟨here, rfl⟩
  · have differ : c ≠ d := by
      rintro rfl
      exact fresh (mem_of_constantAt old)
    rw [if_neg (by simpa using differ)]
    exact h.known d n old
  · rw [if_pos (by simp), here, h.next]

/-- All that asking for the slot of a constant can do. -/
theorem slot_cases (h : Settled p) (c : Constant) :
    (∃ n, p.Holds n c ∧ PoolM.slot c p = (.ok n, p))
    ∨ (c ∉ p.constants.toList ∧ p.next + c.width ≤ limit
      ∧ PoolM.slot c p = (.ok p.next, p.push c))
    ∨ (c ∉ p.constants.toList ∧ limit < p.next + c.width
      ∧ PoolM.slot c p = (.error (.poolOverflow p.next), p)) := by
  rw [PoolM.slot]
  cases known : p.slots[c]? with
  | some n => exact Or.inl ⟨n, h.slots c n known, rfl⟩
  | none =>
    have fresh := h.slots_eq_none.mp known
    by_cases full : limit < p.next + c.width
    · exact Or.inr (Or.inr ⟨fresh, full, by simp only [if_pos full]⟩)
    · exact Or.inr (Or.inl ⟨fresh, Nat.le_of_not_lt full, by simp only [if_neg full]⟩)

end Settled

end ConstantPool

/-! ## Requests -/

/-- What a pool can be asked for. -/
inductive Request where
  | utf8 (s : String)
  | classRef (name : String)
  | stringRef (s : String)
  | integer (v : Int32)
  | float (bits : UInt32)
  | long (v : Int64)
  | double (bits : UInt64)
deriving DecidableEq, Repr

namespace Request

/-- The slot that a request is answered with. -/
def ask : Request → PoolM Fault Nat
  | utf8 s => PoolM.utf8 s
  | classRef name => PoolM.classRef name
  | stringRef s => PoolM.stringRef s
  | integer v => PoolM.integer v.toInt
  | float bits => PoolM.slot (.float bits)
  | long v => PoolM.slot (.long v)
  | double bits => PoolM.slot (.double bits)

/-- The text that a request puts into the pool on the way. -/
def text? : Request → Option String
  | classRef name => some name
  | stringRef s => some s
  | _ => none

end Request

namespace ConstantPool

/-- The constant of the kind and the value that a request asks for. Classes and
strings refer to the slot at which their text stands. -/
def Wants (p : ConstantPool) : Request → Constant → Prop
  | .utf8 s, c => c = .utf8 s
  | .classRef name, c => ∃ text, p.Holds text (.utf8 name) ∧ c = .classRef text
  | .stringRef s, c => ∃ text, p.Holds text (.utf8 s) ∧ c = .stringRef text
  | .integer v, c => c = .integer v
  | .float bits, c => c = .float bits
  | .long v, c => c = .long v
  | .double bits, c => c = .double bits

/-- The slot is the first one of the constant that the request asks for. -/
def Serves (p : ConstantPool) (r : Request) (n : Nat) : Prop :=
  ∃ c, p.Wants r c ∧ p.Holds n c

/-- Why a request is refused, and what it leaves behind: the constant, or the
text that it refers to, is missing and there is no room for it, and nothing but
that text has been put into the pool. -/
structure Refuses (p : ConstantPool) (r : Request) (fault : Fault) (q : ConstantPool) : Prop where
  fault : fault = .poolOverflow q.next
  missing : (∃ c, q.Wants r c ∧ c ∉ q.constants.toList ∧ limit < q.next + c.width)
    ∨ ∃ s, r.text? = some s ∧ .utf8 s ∉ q.constants.toList
      ∧ limit < q.next + (Constant.utf8 s).width
  unchanged : q = p ∨ ∃ s, r.text? = some s ∧ .utf8 s ∉ p.constants.toList ∧ q = p.push (.utf8 s)

variable {p q : ConstantPool} {r s : Request} {c d : Constant}

/-- A request wants the same when a pool grows. -/
theorem Wants.mono (h : p.Wants r c) (grown : Grown p q) : q.Wants r c := by
  cases r with
  | classRef name | stringRef s => exact h.imp fun _ found => ⟨found.1.mono grown, found.2⟩
  | _ => exact h

/-- A slot that serves a request still does. -/
theorem Serves.mono {n : Nat} (h : p.Serves r n) (grown : Grown p q) : q.Serves r n :=
  h.imp fun _ found => ⟨found.1.mono grown, found.2.mono grown⟩

/-- A request wants one constant. -/
theorem Wants.unique (settled : Settled p) (hc : p.Wants r c) (hd : p.Wants r d) : c = d := by
  cases r with
  | classRef name | stringRef s =>
    obtain ⟨n, hn, rfl⟩ := hc
    obtain ⟨m, hm, rfl⟩ := hd
    rw [settled.same_slot hn hm]
  | _ => exact Eq.trans hc (Eq.symm hd)

/-- The request that a constant answers. -/
def request? (p : ConstantPool) : Constant → Option Request
  | .utf8 s => some (.utf8 s)
  | .integer v => some (.integer v)
  | .float bits => some (.float bits)
  | .long v => some (.long v)
  | .double bits => some (.double bits)
  | .classRef text =>
    match constantAt 1 p.constants.toList text with
    | some (.utf8 name) => some (.classRef name)
    | _ => none
  | .stringRef text =>
    match constantAt 1 p.constants.toList text with
    | some (.utf8 s) => some (.stringRef s)
    | _ => none

/-- A constant is wanted by the request that can be read off it. -/
theorem Wants.request? (h : p.Wants r c) : p.request? c = some r := by
  cases r with
  | classRef name | stringRef s =>
    obtain ⟨text, found, rfl⟩ := h
    rw [Holds] at found
    simp only [ConstantPool.request?, found]
  | _ =>
    cases h
    rfl

/-- Requests are served by one slot exactly if they are the same. -/
theorem Serves.eq_iff {n m : Nat} (settled : Settled p) (hn : p.Serves r n) (hm : p.Serves s m) :
    n = m ↔ r = s := by
  obtain ⟨c, wants_c, holds_c⟩ := hn
  obtain ⟨d, wants_d, holds_d⟩ := hm
  constructor
  · rintro rfl
    obtain rfl := holds_c.unique holds_d
    exact Option.some.inj (wants_c.request?.symm.trans wants_d.request?)
  · rintro rfl
    obtain rfl := wants_c.unique settled wants_d
    exact settled.same_slot holds_c holds_d

/-! ## One request -/

/-- What a request does to a pool: it is answered with the slot of the constant
that it asks for, or refused for want of room. -/
def Responds (p : ConstantPool) (r : Request) : Except Fault Nat × ConstantPool → Prop
  | (.ok n, q) => Settled q ∧ Grown p q ∧ q.Serves r n
  | (.error fault, q) => Settled q ∧ Grown p q ∧ p.Refuses r fault q

namespace Settled

/-- A constant that refers to no text takes one step. -/
theorem respond_slot (h : Settled p) (wants : ∀ q : ConstantPool, q.Wants r c)
    (resolves : p.Resolves c) : p.Responds r (PoolM.slot c p) := by
  obtain ⟨n, found, run⟩ | ⟨fresh, room, run⟩ | ⟨fresh, full, run⟩ := h.slot_cases c
  · rw [run]
    exact ⟨h, .refl p, c, wants p, found⟩
  · obtain ⟨_, grown, here⟩ := wellFormed_push h.toWellFormed room resolves
    rw [run]
    exact ⟨h.push fresh room resolves, grown, c, wants _, here⟩
  · rw [run]
    exact ⟨h, .refl p, rfl, Or.inl ⟨c, wants p, fresh, full⟩, Or.inl rfl⟩

/-- A constant that refers to a text takes a second step behind that for the
text, and is refused in either of them. -/
theorem respond_reference (h : Settled p) (make : Nat → Constant) {text : String}
    (refers : r.text? = some text)
    (wants : ∀ (q : ConstantPool) n, q.Holds n (.utf8 text) → q.Wants r (make n))
    (resolves : ∀ (q : ConstantPool) n, q.Holds n (.utf8 text) → q.Resolves (make n)) :
    p.Responds r ((do PoolM.slot (make (← PoolM.utf8 text)) : PoolM Fault Nat) p) := by
  rw [PoolM.bind_run]
  -- What the second step does, given the pool behind the first.
  have second : ∀ q n, Settled q → Grown p q → q.Holds n (.utf8 text) →
      (q = p ∨ ∃ s, r.text? = some s ∧ .utf8 s ∉ p.constants.toList ∧ q = p.push (.utf8 s)) →
      p.Responds r (PoolM.slot (make n) q) := by
    intro q n settled grown found unchanged
    obtain ⟨m, there, run⟩ | ⟨fresh, room, run⟩ | ⟨fresh, full, run⟩ := settled.slot_cases (make n)
    · rw [run]
      exact ⟨settled, grown, make n, wants q n found, there⟩
    · obtain ⟨_, more, here⟩ := wellFormed_push settled.toWellFormed room (resolves q n found)
      rw [run]
      exact ⟨settled.push fresh room (resolves q n found), grown.trans more, make n,
        wants _ n (found.mono more), here⟩
    · rw [run]
      exact ⟨settled, grown, rfl, Or.inl ⟨make n, wants q n found, fresh, full⟩, unchanged⟩
  obtain ⟨n, found, run⟩ | ⟨fresh, room, run⟩ | ⟨fresh, full, run⟩ := h.slot_cases (.utf8 text)
  · rw [PoolM.utf8, run]
    exact second p n h (.refl p) found (Or.inl rfl)
  · obtain ⟨_, grown, here⟩ := wellFormed_push (c := .utf8 text) h.toWellFormed room trivial
    rw [PoolM.utf8, run]
    exact second _ _ (h.push fresh room trivial) grown here (Or.inr ⟨text, refers, fresh, rfl⟩)
  · rw [PoolM.utf8, run]
    exact ⟨h, .refl p, rfl, Or.inr ⟨text, refers, fresh, full⟩, Or.inl rfl⟩

/-- A settled pool responds to every request. -/
theorem ask (h : Settled p) (r : Request) : p.Responds r (r.ask p) := by
  cases r with
  | classRef name =>
    exact h.respond_reference .classRef rfl (fun _ n found => ⟨n, found, rfl⟩)
      fun _ _ found => ⟨name, found⟩
  | stringRef s =>
    exact h.respond_reference .stringRef rfl (fun _ n found => ⟨n, found, rfl⟩)
      fun _ _ found => ⟨s, found⟩
  | integer v =>
    rw [Request.ask, PoolM.integer, Int32.ofInt_toInt]
    exact h.respond_slot (fun _ => rfl) trivial
  | _ => exact h.respond_slot (fun _ => rfl) trivial

/-- It stays settled and only grows. -/
theorem of_ask (h : Settled p) (r : Request) : Settled (r.ask p).2 ∧ Grown p (r.ask p).2 := by
  have responds := h.ask r
  generalize r.ask p = result at responds
  obtain ⟨_ | n, q⟩ := result
  · exact ⟨responds.1, responds.2.1⟩
  · exact ⟨responds.1, responds.2.1⟩

end Settled

end ConstantPool

/-! ## Lists of requests -/

open ConstantPool

/-- The pool behind a list of requests on a new pool, refused ones included. -/
def poolAfter (rs : List Request) : ConstantPool := rs.foldl (fun p r => (r.ask p).2) .empty

/-- What the request at a position is answered. -/
def answerAt? (rs : List Request) (i : Nat) : Option (Except Fault Nat) :=
  rs[i]?.map fun r => (r.ask (poolAfter (rs.take i))).1

theorem settled_foldl {p : ConstantPool} (h : Settled p) (rs : List Request) :
    Settled (rs.foldl (fun p r => (r.ask p).2) p)
      ∧ Grown p (rs.foldl (fun p r => (r.ask p).2) p) := by
  induction rs generalizing p with
  | nil => exact ⟨h, .refl p⟩
  | cons r rs ih =>
    obtain ⟨settled, grown⟩ := h.of_ask r
    obtain ⟨rest, further⟩ := ih settled
    exact ⟨rest, grown.trans further⟩

/-- Every pool that requests lead to is settled. -/
theorem settled_poolAfter (rs : List Request) : Settled (poolAfter rs) :=
  (settled_foldl settled_empty rs).1

/-- What comes later only adds to the pool. -/
theorem grown_poolAfter (rs more : List Request) : Grown (poolAfter rs) (poolAfter (rs ++ more)) := by
  rw [poolAfter, poolAfter, List.foldl_append]
  exact (settled_foldl (settled_poolAfter rs) more).2

/-- One request more is asked of the pool of those before it. -/
theorem poolAfter_succ {rs : List Request} {i : Nat} {r : Request} (asked : rs[i]? = some r) :
    poolAfter (rs.take (i + 1)) = (r.ask (poolAfter (rs.take i))).2 := by
  rw [List.take_add_one, asked, poolAfter, List.foldl_append]
  rfl

/-- A request that was served stays served. -/
theorem serves_poolAfter {rs : List Request} {i k n : Nat} {r : Request} (asked : rs[i]? = some r)
    (answer : answerAt? rs i = some (.ok n)) (later : i < k) :
    (poolAfter (rs.take k)).Serves r n := by
  have responds := (settled_poolAfter (rs.take i)).ask r
  have behind := poolAfter_succ asked
  rw [answerAt?, asked, Option.map_some, Option.some.injEq] at answer
  generalize r.ask (poolAfter (rs.take i)) = result at responds answer behind
  obtain ⟨_ | m, q⟩ := result
  · cases answer
  · cases answer
    obtain ⟨_, _, serves⟩ := responds
    obtain ⟨more, same⟩ : ∃ more, rs.take k = rs.take (i + 1) ++ more := by
      refine ⟨(rs.take k).drop (i + 1), ?_⟩
      have front : (rs.take k).take (i + 1) = rs.take (i + 1) := by
        rw [List.take_take, Nat.min_eq_left later]
      rw [← front, List.take_append_drop]
    have grown := grown_poolAfter (rs.take (i + 1)) more
    rw [← same, behind] at grown
    exact serves.mono grown

/-- A fault among the answers is a refusal of the pool at that time. -/
theorem refuses_poolAfter {rs : List Request} {i : Nat} {r : Request} {fault : Fault}
    (asked : rs[i]? = some r) (answer : answerAt? rs i = some (.error fault)) :
    (poolAfter (rs.take i)).Refuses r fault (poolAfter (rs.take (i + 1))) := by
  have responds := (settled_poolAfter (rs.take i)).ask r
  rw [poolAfter_succ asked]
  rw [answerAt?, asked, Option.map_some, Option.some.injEq] at answer
  generalize r.ask (poolAfter (rs.take i)) = result at responds answer
  obtain ⟨_ | m, q⟩ := result
  · cases answer
    exact responds.2.2
  · cases answer

/-- Whatever a new pool is asked for, and however many of the requests it has no
room for, the slots are counted, every answer stays good and tells what was asked
for, and a refusal has its reason and changes nothing else. -/
theorem pool_of_requests (rs : List Request) :
    ((poolAfter rs).next = 1 + ((poolAfter rs).constants.toList.map Constant.width).sum
      ∧ (poolAfter rs).next ≤ 65535)
    ∧ (∀ i r n, rs[i]? = some r → answerAt? rs i = some (.ok n) → ∀ k, i < k →
        (poolAfter (rs.take k)).Serves r n
          ∧ ∀ m c, (poolAfter (rs.take k)).Holds m c → c.width = 2 → n ≠ m + 1)
    ∧ (∀ i j r s n m, rs[i]? = some r → rs[j]? = some s → answerAt? rs i = some (.ok n) →
        answerAt? rs j = some (.ok m) → (n = m ↔ r = s))
    ∧ ∀ i r fault, rs[i]? = some r → answerAt? rs i = some (.error fault) →
        (poolAfter (rs.take i)).Refuses r fault (poolAfter (rs.take (i + 1))) := by
  have settled := settled_poolAfter rs
  refine ⟨⟨settled.next, settled.room⟩, ?_, ?_, ?_⟩
  · intro i r n asked answer k later
    have serves := serves_poolAfter asked answer later
    refine ⟨serves, ?_⟩
    intro m c found wide
    obtain ⟨d, _, here⟩ := serves
    exact here.ne_second found wide
  · intro i j r s n m asked_r asked_s answer_r answer_s
    have inside_i := (List.getElem?_eq_some_iff.mp asked_r).1
    have inside_j := (List.getElem?_eq_some_iff.mp asked_s).1
    have serves_r := serves_poolAfter asked_r answer_r inside_i
    have serves_s := serves_poolAfter asked_s answer_s inside_j
    rw [List.take_length] at serves_r serves_s
    exact serves_r.eq_iff settled serves_s
  · intro i r fault asked answer
    exact refuses_poolAfter asked answer

/-! A run to the last slot: numbers of two slots each up to the last but two, one
number of a single slot, and a class of which only the name has room. -/

section Full

/-- The numbers below `k` as wide constants. -/
def wideConstants (k : Nat) : List Constant := (List.range k).map fun i => .long (Int64.ofNat i)

theorem wideConstants_succ (k : Nat) :
    wideConstants (k + 1) = wideConstants k ++ [.long (Int64.ofNat k)] := by
  rw [wideConstants, List.range_succ, List.map_append]
  rfl

/-- Wide constants take two slots each. -/
theorem slotsOf_wideConstants (k : Nat) : slotsOf (wideConstants k) = 2 * k := by
  induction k with
  | zero => rfl
  | succ k ih =>
    rw [wideConstants_succ, slotsOf, List.map_append, List.sum_append, ← slotsOf, ih]
    rfl

/-- They are the first numbers. -/
theorem long_mem_wideConstants {v : Int64} {k : Nat} (mem : .long v ∈ wideConstants k) :
    ∃ i < k, v = Int64.ofNat i := by
  obtain ⟨i, hi, same⟩ := List.mem_map.mp mem
  exact ⟨i, List.mem_range.mp hi, (Constant.long.inj same).symm⟩

/-- As long as there is room, each request for one adds it. -/
theorem poolAfter_wide {k : Nat} (few : k ≤ 32767) :
    poolAfter ((List.range k).map fun i => .long (Int64.ofNat i)) = ofConstants (wideConstants k) := by
  induction k with
  | zero => rfl
  | succ k ih =>
    have fresh : Constant.long (Int64.ofNat k) ∉ wideConstants k := by
      intro mem
      obtain ⟨i, hi, same⟩ := long_mem_wideConstants mem
      have numbers := congrArg Int64.toInt same
      rw [Int64.toInt_ofNat_of_lt (by omega), Int64.toInt_ofNat_of_lt (by omega)] at numbers
      omega
    have room : 1 + slotsOf (wideConstants k) + (Constant.long (Int64.ofNat k)).width ≤ limit := by
      rw [slotsOf_wideConstants, Constant.width, limit]
      omega
    have before := ih (by omega)
    rw [poolAfter] at before
    rw [List.range_succ, List.map_append, poolAfter, List.foldl_append, before, wideConstants_succ]
    exact congrArg Prod.snd (PoolM.slot_ofConstants fresh room)

/-- Requests that leave room for one more slot, and for a class behind them. -/
def lastRequests : List Request :=
  ((List.range 32766).map fun i => .long (Int64.ofNat i)) ++ [.integer 0, .classRef "A"]

/-- The constants in front of the class. -/
def lastConstants : List Constant := wideConstants 32766 ++ [.integer 0]

/-- The pool is filled but for the last slot. -/
theorem slotsOf_lastConstants : slotsOf lastConstants = 65533 := by
  rw [lastConstants, slotsOf, List.map_append, List.sum_append, ← slotsOf, slotsOf_wideConstants]
  rfl

/-- A short constant is not among the wide ones. -/
theorem not_mem_wideConstants {c : Constant} {k : Nat} (short : c.width = 1) :
    c ∉ wideConstants k := by
  intro mem
  obtain ⟨i, _, rfl⟩ := List.mem_map.mp mem
  cases short

/-- The integer takes the last slot but one. -/
theorem ask_integer : (Request.integer 0).ask (ofConstants (wideConstants 32766))
    = (.ok 65533, ofConstants lastConstants) := by
  have room : 1 + slotsOf (wideConstants 32766) + (Constant.integer 0).width ≤ limit := by
    rw [slotsOf_wideConstants]
    decide
  have run := PoolM.slot_ofConstants (not_mem_wideConstants (c := .integer 0) rfl) room
  rw [slotsOf_wideConstants] at run
  exact run

/-- A class is asked for behind its name. -/
theorem ask_classRef {name : String} {p q : ConstantPool} {text : Nat}
    (found : PoolM.slot (.utf8 name) p = (.ok text, q)) :
    (Request.classRef name).ask p = PoolM.slot (.classRef text) q := by
  rw [Request.ask, PoolM.classRef, PoolM.bind_run, PoolM.utf8, found]

/-- A constant for which a pool of given constants has no room. -/
theorem slot_full {cs : List Constant} {c : Constant} (fresh : c ∉ cs)
    (full : limit < 1 + slotsOf cs + c.width) :
    PoolM.slot c (ofConstants cs) = (.error (.poolOverflow (1 + slotsOf cs)), ofConstants cs) := by
  obtain ⟨_, next, slots⟩ := foldl_push empty cs
  have next : (ofConstants cs).next = 1 + slotsOf cs := next
  have missing : (ofConstants cs).slots[c]? = none :=
    (slots c fresh).trans Std.HashMap.getElem?_empty
  rw [PoolM.slot, missing]
  dsimp only
  rw [next, if_pos full]

/-- The name of the class takes the last slot, and the class has none. -/
theorem ask_class : (Request.classRef "A").ask (ofConstants lastConstants)
    = (.error (.poolOverflow 65535), ofConstants (lastConstants ++ [.utf8 "A"])) := by
  have name_fresh : Constant.utf8 "A" ∉ lastConstants := by
    rw [lastConstants, List.mem_append, not_or]
    exact ⟨not_mem_wideConstants rfl, by simp⟩
  have room : 1 + slotsOf lastConstants + (Constant.utf8 "A").width ≤ limit := by
    rw [slotsOf_lastConstants]
    decide
  have name := PoolM.slot_ofConstants name_fresh room
  have class_fresh : Constant.classRef 65534 ∉ lastConstants ++ [.utf8 "A"] := by
    rw [lastConstants, List.mem_append, List.mem_append, not_or, not_or]
    exact ⟨⟨not_mem_wideConstants rfl, by simp⟩, by simp⟩
  have taken : slotsOf (lastConstants ++ [.utf8 "A"]) = 65534 := by
    rw [slotsOf, List.map_append, List.sum_append, ← slotsOf, slotsOf_lastConstants]
    rfl
  have class_full := slot_full class_fresh (by rw [taken]; decide)
  rw [slotsOf_lastConstants] at name
  rw [taken] at class_full
  exact (ask_classRef name).trans class_full

theorem pool_of_requests_full :
    answerAt? lastRequests 0 = some (.ok 1)
    ∧ answerAt? lastRequests 32766 = some (.ok 65533)
    ∧ answerAt? lastRequests 32767 = some (.error (.poolOverflow 65535))
    ∧ (poolAfter lastRequests).Serves (.long 0) 1
    ∧ (1 = 65533 ↔ Request.long 0 = .integer 0)
    ∧ (poolAfter (lastRequests.take 32767)).Refuses (.classRef "A") (.poolOverflow 65535)
        (poolAfter lastRequests) := by
  have count : ((List.range 32766).map fun i => Request.long (Int64.ofNat i)).length = 32766 := by
    rw [List.length_map, List.length_range]
  have asked_long : lastRequests[0]? = some (.long 0) := by
    rw [lastRequests, List.getElem?_append_left (by rw [count]; decide), List.getElem?_map,
      List.getElem?_range (by decide)]
    rfl
  have asked_integer : lastRequests[32766]? = some (.integer 0) := by
    rw [lastRequests, List.getElem?_append_right (by rw [count]), count]
    rfl
  have asked_class : lastRequests[32767]? = some (.classRef "A") := by
    rw [lastRequests, List.getElem?_append_right (by rw [count]; decide), count]
    rfl
  have wide : poolAfter (lastRequests.take 32766) = ofConstants (wideConstants 32766) := by
    rw [lastRequests, List.take_left' count]
    exact poolAfter_wide (by decide)
  have last : poolAfter (lastRequests.take 32767) = ofConstants lastConstants := by
    rw [poolAfter_succ asked_integer, wide, ask_integer]
  have long : answerAt? lastRequests 0 = some (.ok 1) := by
    rw [answerAt?, asked_long, Option.map_some, List.take_zero]
    have fresh : Constant.long 0 ∉ [] := List.not_mem_nil
    exact congrArg (fun x => some x.1) (PoolM.slot_ofConstants fresh (by decide))
  have integer : answerAt? lastRequests 32766 = some (.ok 65533) := by
    rw [answerAt?, asked_integer, Option.map_some, wide, ask_integer]
  have refused : answerAt? lastRequests 32767 = some (.error (.poolOverflow 65535)) := by
    rw [answerAt?, asked_class, Option.map_some, last, ask_class]
  have length : lastRequests.length = 32768 := by
    rw [lastRequests, List.length_append, count, List.length_cons, List.length_singleton]
  obtain ⟨_, served, same, refuses⟩ := pool_of_requests lastRequests
  have whole : lastRequests.take 32768 = lastRequests := by
    rw [← length, List.take_length]
  have stays := (served 0 _ 1 asked_long long 32768 (by decide)).1
  have reason := refuses 32767 _ _ asked_class refused
  rw [whole] at stays reason
  exact ⟨long, integer, refused, stays,
    same 0 32766 _ _ 1 65533 asked_long asked_integer long integer, reason⟩

end Full

end StubJar.ClassFile
