import Mathlib.Data.List.Perm.Subperm
import Mathlib.Logic.Relation
import StubJar.Proofs.Container.ClassOrder

/-!
# Cycles of the hierarchy

Ordering the classes fails exactly where one of them is its own ancestor, and
the class it names is one of those (`order_topological`). The fault half follows
the way of the visit: the classes that are entered and not finished lead to the
one that is visited next (`Way`), so that a class met again among them lies on a
cycle, and as they are distinct the visit is never too deep. The other half
reads the order itself: a class stands behind all its ancestors, so it is none
of them.
-/

namespace StubJar.Container.Hierarchy

open Relation StubJar.Dalvik StubJar.Order

/-! ## Numbers -/

section Numbers

variable {n fuel : Nat} {parents : Nat → List Nat}

/-- One number after another, each a parent of the one in front of it. -/
def Leads (parents : Nat → List Nat) : Nat → Nat → Prop := TransGen fun i p => p ∈ parents i

/-- The numbers entered and not finished, when `i` is to be visited. Each of
them leads to `i`, and with them the visit does not come to the end of its
fuel. -/
structure Way (n fuel : Nat) (parents : Nat → List Nat) (s : State) (i : Nat) (way : List Nat) :
    Prop where
  entered : ∀ j, s.mark j = .entered ↔ j ∈ way
  nodup : way.Nodup
  leads : ∀ j ∈ way, Leads parents j i
  fuel : n < fuel + way.length

/-- Only numbers with a mark of their own are entered. -/
theorem inside_of_entered {s : State} {i : Nat} (entered : s.mark i = .entered) :
    i < s.marks.size := by
  by_contra outside
  rw [State.mark, Array.getD_eq_getD_getElem?, Array.getElem?_eq_none (by omega)] at entered
  cases entered

/-- The numbers on the way are distinct and below `n`, so some fuel is left. -/
theorem Way.fuel_pos {s : State} {i : Nat} {way : List Nat} (h : Consistent n parents s)
    (hw : Way n fuel parents s i way) : 0 < fuel := by
  have inside : way ⊆ List.range n := fun j hj =>
    List.mem_range.mpr (h.size ▸ inside_of_entered ((hw.entered j).mpr hj))
  have few := (hw.nodup.subperm inside).length_le
  rw [List.length_range] at few
  have := hw.fuel
  omega

/-- From an untouched number the way goes on to each of its parents. -/
theorem Way.enter {s s' : State} {i p : Nat} {way : List Nat} (hi : i < n)
    (h : Consistent n parents s) (hw : Way n (fuel + 1) parents s i way)
    (untouched : s.mark i = .untouched) (parent : p ∈ parents i)
    (same : ∀ j, s'.mark j = .entered ↔ (s.enter i).mark j = .entered) :
    Way n fuel parents s' p (i :: way) where
  entered j := by
    rw [same, mark_enter (by rwa [h.size]), List.mem_cons]
    by_cases here : i = j
    · simp [here]
    · have differ : ¬ j = i := fun h => here h.symm
      simp [here, differ, hw.entered j]
  nodup := by
    refine List.nodup_cons.mpr ⟨fun mem => ?_, hw.nodup⟩
    have entered := (hw.entered i).mpr mem
    rw [untouched] at entered
    cases entered
  leads j hj := by
    rcases List.mem_cons.mp hj with rfl | before
    · exact .single parent
    · exact (hw.leads j before).tail parent
  fuel := by
    have := hw.fuel
    rw [List.length_cons]
    omega

/-- A visit that fails names a number that leads back to itself. -/
theorem leads_of_visit (inside : ∀ i, ∀ p ∈ parents i, p < n) {s : State} {i e : Nat}
    {way : List Nat} (hi : i < n) (h : Consistent n parents s) (hw : Way n fuel parents s i way)
    (run : visit parents fuel s i = .error e) : e < n ∧ Leads parents e e := by
  induction fuel generalizing s i way with
  | zero => exact absurd (hw.fuel_pos h) (Nat.lt_irrefl 0)
  | succ fuel ih =>
    rw [visit] at run
    split at run
    · cases run
    · rename_i entered
      cases run
      exact ⟨hi, hw.leads _ ((hw.entered _).mp entered)⟩
    · rename_i untouched
      rcases bind_eq_error.mp run with fold | ⟨_, _, none⟩
      · -- the parents in front of the failing one have been visited and have left the way as it was
        obtain ⟨earlier, p, later, s', split, visited, fails⟩ := foldlM_eq_error fold
        have parent : ∀ q ∈ earlier ++ p :: later, q ∈ parents i := fun q hq => split ▸ hq
        have parents_inside : ∀ q ∈ earlier, q < n := fun q hq =>
          inside i q (parent q (List.mem_append_left _ hq))
        obtain ⟨advance, -⟩ := advance_foldlM (fun hj => advance_visit inside fuel hj) parents_inside
          (h.enter hi untouched) visited
        have isParent : p ∈ parents i := parent p (by simp)
        exact ih (inside i p isParent) advance.consistent
          (hw.enter hi h untouched isParent advance.entered) fails
      · cases none

/-- So does an order that fails. -/
theorem leads_of_sorted (inside : ∀ i, ∀ p ∈ parents i, p < n) {e : Nat}
    (run : sorted n parents = .error e) : e < n ∧ Leads parents e e := by
  rcases bind_eq_error.mp run with fold | ⟨_, _, none⟩
  · obtain ⟨earlier, i, later, s, split, visited, fails⟩ := foldlM_eq_error fold
    have below : ∀ j ∈ earlier ++ i :: later, j < n := fun j hj => List.mem_range.mp (split ▸ hj)
    have start := consistent_start n parents
    obtain ⟨advance, -⟩ := advance_foldlM (fun hj => advance_visit inside (n + 1) hj)
      (fun j hj => below j (List.mem_append_left _ hj)) start visited
    -- between two visits nothing is entered: it is so at the start, and a visit leaves the way alone
    have nothing : ∀ j, ¬ s.mark j = .entered := by
      intro j entered
      have before := (advance.entered j).mp entered
      have small := inside_of_entered before
      rw [State.mark, Array.getD_eq_getD_getElem?, Array.getElem?_replicate,
        if_pos (by simpa using small)] at before
      cases before
    have way : Way n (n + 1) parents s i [] := {
      entered := fun j => by simp [nothing j]
      nodup := List.nodup_nil
      leads := fun _ mem => absurd mem List.not_mem_nil
      fuel := Nat.lt_succ_self n }
    exact leads_of_visit inside (below i (by simp)) advance.consistent way fails
  · cases none

/-- What a number leads to stands behind it. -/
theorem lt_of_leads {numbers : List Nat} (behind : ParentsBehind parents numbers)
    (nodup : numbers.Nodup) {i j : Nat} (leads : Leads parents i j) {a b : Nat}
    (ha : numbers[a]? = some i) (hb : numbers[b]? = some j) : a < b := by
  induction leads using TransGen.head_induction_on generalizing a with
  | single parent => exact lt_of_parentsBehind behind nodup ha hb parent
  | head parent _ ih =>
    obtain ⟨k, hk⟩ := List.mem_iff_getElem?.mp
      (mem_of_parentsBehind behind (List.mem_of_getElem? ha) parent)
    exact Nat.lt_trans (lt_of_parentsBehind behind nodup ha hk parent) (ih hk)

/-- An order that succeeds has no number that leads back to itself. -/
theorem not_leads_of_sorted (inside : ∀ i, ∀ p ∈ parents i, p < n) {positions : List Nat}
    (run : sorted n parents = .ok positions) {i : Nat} (hi : i < n) : ¬ Leads parents i i := by
  intro leads
  obtain ⟨perm, behind⟩ := sorted_spec inside run
  have nodup : positions.reverse.Nodup :=
    List.nodup_reverse.mpr (perm.nodup_iff.mpr List.nodup_range)
  obtain ⟨a, ha⟩ := List.mem_iff_getElem?.mp
    (List.mem_reverse.mpr (perm.mem_iff.mpr (List.mem_range.mpr hi)))
  exact Nat.lt_irrefl a (lt_of_leads behind nodup leads ha ha)

end Numbers

/-! ## Classes -/

section Classes

variable {classes : List ClassDecl}

/-- The class at `i` builds on the one at `j`, the last of those that have the
type of its superclass or of one of its interfaces. -/
def BuildsOn (classes : List ClassDecl) (i j : Nat) : Prop :=
  ∃ c d, classes[i]? = some c ∧ classes[j]? = some d
    ∧ (c.superclass = some d.type ∨ d.type ∈ c.interfaces)
    ∧ ∀ k e, classes[k]? = some e → e.type = d.type → k ≤ j

/-- The class at `i` builds on itself, maybe by way of others. -/
def OnCycle (classes : List ClassDecl) (i : Nat) : Prop := TransGen (BuildsOn classes) i i

/-- The parents of a class are its superclass and its interfaces. -/
theorem mem_parents {c : ClassDecl} {t : Descriptor} :
    t ∈ c.parents ↔ c.superclass = some t ∨ t ∈ c.interfaces := by
  rw [ClassDecl.parents, List.mem_append, Option.mem_toList]

/-- What is found for a type is the last class that has it. -/
theorem lastOfType_eq_some {t : Descriptor} {j : Nat} : (lastOfType classes)[t]? = some j ↔
    (∃ d, classes[j]? = some d ∧ d.type = t)
      ∧ ∀ k e, classes[k]? = some e → e.type = t → k ≤ j := by
  have listed : ∀ k, (t, k) ∈ classes.zipIdx.map (fun x => (x.1.type, x.2))
      ↔ ∃ e, classes[k]? = some e ∧ e.type = t := by
    intro k
    rw [List.mem_map]
    constructor
    · rintro ⟨⟨e, k'⟩, mem, same⟩
      cases same
      exact ⟨e, List.mk_mem_zipIdx_iff_getElem?.mp mem, rfl⟩
    · rintro ⟨e, stands, rfl⟩
      exact ⟨(e, k), List.mk_mem_zipIdx_iff_getElem?.mpr stands, rfl⟩
  have rising : (classes.zipIdx.map fun x => (x.1.type, x.2)).Pairwise (·.2 < ·.2) := by
    refine List.pairwise_map.mpr (List.pairwise_map.mp ?_ : classes.zipIdx.Pairwise (·.2 < ·.2))
    rw [List.zipIdx_map_snd]
    exact List.pairwise_lt_range'
  rw [getElem?_lastOfType, lastFor_eq_some_of_rising rising, listed]
  refine and_congr_right fun _ => ⟨fun last k e stands same => ?_, fun last k mem => ?_⟩
  · exact last k ((listed k).mpr ⟨e, stands, same⟩)
  · obtain ⟨e, stands, same⟩ := (listed k).mp mem
    exact last k e stands same

/-- A class builds on its parents. -/
theorem mem_parentsOf_iff {i j : Nat} : j ∈ parentsOf classes i ↔ BuildsOn classes i j := by
  rw [mem_parentsOf]
  constructor
  · rintro ⟨c, t, hc, parent, found⟩
    obtain ⟨⟨d, hd, rfl⟩, last⟩ := lastOfType_eq_some.mp found
    exact ⟨c, d, hc, hd, mem_parents.mp parent, last⟩
  · rintro ⟨c, d, hc, hd, parent, last⟩
    exact ⟨c, d.type, hc, mem_parents.mpr parent, lastOfType_eq_some.mpr ⟨⟨d, hd, rfl⟩, last⟩⟩

/-- Parents lead to what a class builds on, at any distance. -/
theorem leads_iff {i j : Nat} :
    Leads (parentsOf classes) i j ↔ TransGen (BuildsOn classes) i j := by
  have same : (fun i p => p ∈ parentsOf classes i) = BuildsOn classes := by
    funext i p
    exact propext mem_parentsOf_iff
  rw [Leads, same]

/-- What builds on a class is one of the file. -/
theorem BuildsOn.inside {i j : Nat} (h : BuildsOn classes i j) : i < classes.length := by
  obtain ⟨c, _, hc, _⟩ := h
  exact (List.getElem?_eq_some_iff.mp hc).1

/-- So is a class on a cycle. -/
theorem OnCycle.inside {i : Nat} (h : OnCycle classes i) : i < classes.length := by
  rcases TransGen.head'_iff.mp h with ⟨j, first, -⟩
  exact first.inside

/-- The fault names a class on a cycle. -/
theorem onCycle_of_error {fault : EncodeFault} (run : order classes = .error fault) :
    ∃ i c, classes[i]? = some c ∧ OnCycle classes i ∧ fault = .cyclicHierarchy c.type.text := by
  rw [order_eq] at run
  split at run
  · cases run
  · rename_i i fails
    cases run
    obtain ⟨inside, leads⟩ := leads_of_sorted (fun _ _ => parentsOf_lt) fails
    refine ⟨i, classes[i], List.getElem?_eq_getElem inside, leads_iff.mp leads, ?_⟩
    rw [List.getElem?_eq_getElem inside]
    rfl

/-- Without a fault there is no cycle. -/
theorem not_onCycle_of_ok {positions : List Nat} (run : order classes = .ok positions) {i : Nat} :
    ¬ OnCycle classes i := fun cycle =>
  not_leads_of_sorted (fun _ _ => parentsOf_lt) (sorted_of_order run) cycle.inside
    (leads_iff.mpr cycle)

/-- There is an order exactly if there is no cycle. -/
theorem exists_order_iff :
    (∃ positions, order classes = .ok positions) ↔ ¬ ∃ i, OnCycle classes i := by
  constructor
  · rintro ⟨positions, run⟩ ⟨i, cycle⟩
    exact not_onCycle_of_ok run cycle
  · intro none
    cases run : order classes with
    | ok positions => exact ⟨positions, rfl⟩
    | error fault =>
      obtain ⟨i, c, _, cycle, _⟩ := onCycle_of_error run
      exact absurd ⟨i, cycle⟩ none

/-- In the reversed list a position stands as far from the end. -/
theorem getElem?_reverse_idxOf {positions : List Nat} {i : Nat} (mem : i ∈ positions) :
    positions.reverse[positions.length - 1 - positions.idxOf i]? = some i := by
  have inside := List.idxOf_lt_length_of_mem mem
  rw [List.getElem?_reverse (by omega),
    show positions.length - 1 - (positions.length - 1 - positions.idxOf i) = positions.idxOf i by omega,
    List.getElem?_eq_getElem inside, List.getElem_idxOf inside]

/-- In the order a class stands behind the ones it builds on. -/
theorem idxOf_lt_of_buildsOn {positions : List Nat} (run : order classes = .ok positions)
    {i j : Nat} (h : BuildsOn classes i j) : positions.idxOf j < positions.idxOf i := by
  have parent := mem_parentsOf_iff.mpr h
  obtain ⟨perm, behind⟩ := sorted_spec (fun _ _ => parentsOf_lt) (sorted_of_order run)
  have listed : ∀ k, k < classes.length → k ∈ positions := fun k hk =>
    perm.mem_iff.mpr (List.mem_range.mpr hk)
  have hi := List.idxOf_lt_length_of_mem (listed i h.inside)
  have hj := List.idxOf_lt_length_of_mem (listed j (parentsOf_lt parent))
  have ahead := lt_of_parentsBehind behind (List.nodup_reverse.mpr (perm.nodup_iff.mpr List.nodup_range))
    (getElem?_reverse_idxOf (listed i h.inside)) (getElem?_reverse_idxOf (listed j (parentsOf_lt parent)))
    parent
  omega

/-- What is listed behind all it builds on stays as it is. -/
theorem order_of_listed (listed : ∀ i j, BuildsOn classes i j → j < i) :
    order classes = .ok (List.range classes.length) := by
  rw [order_eq, sorted_of_listed fun i p hp => listed i p (mem_parentsOf_iff.mp hp)]

end Classes

/-- Ordering the classes fails exactly if there is a cycle among them, with the
type of a class on one. Otherwise each position has its place in the order,
behind those that its class builds on, and a list that is in such an order
already is left alone. -/
theorem order_topological (classes : List ClassDecl) :
    ((∃ fault, order classes = .error fault) ↔ ∃ i, OnCycle classes i)
    ∧ (∀ fault, order classes = .error fault → ∃ i c, classes[i]? = some c ∧ OnCycle classes i
        ∧ fault = .cyclicHierarchy c.type.text)
    ∧ (∀ positions, order classes = .ok positions → positions.Perm (List.range classes.length)
        ∧ ∀ i j, BuildsOn classes i j → positions.idxOf j < positions.idxOf i)
    ∧ ((∀ i j, BuildsOn classes i j → j < i) →
        order classes = .ok (List.range classes.length)) := by
  refine ⟨⟨?_, ?_⟩, fun _ run => onCycle_of_error run, fun positions run => ?_, order_of_listed⟩
  · rintro ⟨fault, run⟩
    obtain ⟨i, _, _, cycle, _⟩ := onCycle_of_error run
    exact ⟨i, cycle⟩
  · intro cycle
    cases run : order classes with
    | ok positions => exact absurd cycle (exists_order_iff.mp ⟨positions, run⟩)
    | error fault => exact ⟨fault, rfl⟩
  · exact ⟨order_perm run, fun i j => idxOf_lt_of_buildsOn run⟩

/-- Two classes that extend each other. -/
def loop : List ClassDecl :=
  [⟨⟨"LA;"⟩, ⟨0⟩, some ⟨"LB;"⟩, [], none, [], [], []⟩,
    ⟨⟨"LB;"⟩, ⟨0⟩, some ⟨"LA;"⟩, [], none, [], [], []⟩]

/-- A class that is its own superclass is on a cycle. -/
theorem onCycle_loop : OnCycle loop 0 := by
  have last : ∀ (j : Nat) (d : ClassDecl), loop[j]? = some d → ∀ k e, loop[k]? = some e →
      e.type = d.type → k ≤ j := by
    intro j d hd k e he same
    match j, k with
    | 0, 0 | 1, 0 | 1, 1 => omega
    | 0, 1 =>
      cases hd
      cases he
      exact absurd same (by decide)
    | _, k + 2 => simp [loop] at he
    | j + 2, _ => simp [loop] at hd
  have up : BuildsOn loop 0 1 := ⟨_, _, rfl, rfl, .inl rfl, last 1 _ rfl⟩
  have down : BuildsOn loop 1 0 := ⟨_, _, rfl, rfl, .inl rfl, last 0 _ rfl⟩
  exact .tail (.single up) down

/-- It has no order. -/
theorem order_topological_loop : OnCycle loop 0 ∧ ∃ fault, order loop = .error fault :=
  ⟨onCycle_loop, (order_topological loop).1.mpr ⟨0, onCycle_loop⟩⟩

example : order loop = .error (.cyclicHierarchy "LA;") := by cbv

end StubJar.Container.Hierarchy
