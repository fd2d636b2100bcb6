import StubJar.Container.Hierarchy
import StubJar.Proofs.Order.Tables
import StubJar.Proofs.Success

/-!
# The order of classes

`Hierarchy.order` gives each position once (`order_perm`), each behind the
positions of its parents (`order_parentsFirst`), and leaves alone a list in
which every class stands behind its parents already (`order_of_listed`).

One invariant of the visit carries the first two. The finished classes are the
ones that are done, each of them once and in front of its parents, which are
done themselves; and a visit that succeeds leaves behind the classes that it has
found entered, so that a class is finished only once.
-/

namespace StubJar.Container.Hierarchy

open StubJar.Dalvik StubJar.Order

/-- Every number stands in front of its parents, which are in the list. -/
def ParentsBehind (parents : Nat → List Nat) : List Nat → Prop
  | [] => True
  | i :: rest => (∀ p ∈ parents i, p ∈ rest) ∧ ParentsBehind parents rest

/-- What holds of the marks and of the finished classes throughout a visit. -/
structure Consistent (n : Nat) (parents : Nat → List Nat) (s : State) : Prop where
  size : s.marks.size = n
  nodup : s.done.Nodup
  finished : ∀ i, i ∈ s.done ↔ i < n ∧ s.mark i = .finished
  behind : ParentsBehind parents s.done

/-- What a successful visit does: the state is consistent again, nothing that
was done is undone, the classes on the way are the same as before. -/
structure Advance (n : Nat) (parents : Nat → List Nat) (s s' : State) : Prop where
  consistent : Consistent n parents s'
  grows : ∀ i ∈ s.done, i ∈ s'.done
  entered : ∀ i, s'.mark i = .entered ↔ s.mark i = .entered

section Visit

variable {n : Nat} {parents : Nat → List Nat}

/-- Nothing has to happen for a state to advance. -/
theorem Advance.refl {s : State} (h : Consistent n parents s) : Advance n parents s s :=
  ⟨h, fun _ hi => hi, fun _ => Iff.rfl⟩

/-- What advances twice advances. -/
theorem Advance.trans {s s' s'' : State} (first : Advance n parents s s')
    (second : Advance n parents s' s'') : Advance n parents s s'' :=
  ⟨second.consistent, fun i hi => second.grows i (first.grows i hi),
    fun i => (second.entered i).trans (first.entered i)⟩

/-- Only the mark that is set changes. -/
theorem mark_set (s : State) (i j : Nat) (mark : Mark) (inside : i < s.marks.size) :
    (s.marks.setIfInBounds i mark).getD j .finished = if i = j then mark else s.mark j := by
  simp only [State.mark, Array.getD_eq_getD_getElem?, Array.getElem?_setIfInBounds]
  by_cases same : i = j
  · subst same
    simp [inside]
  · simp [same]

/-- A class that is entered is marked so, and no other. -/
theorem mark_enter {s : State} {i : Nat} (inside : i < s.marks.size) (j : Nat) :
    (s.enter i).mark j = if i = j then .entered else s.mark j := mark_set s i j .entered inside

/-- So it is with one that is finished. -/
theorem mark_finish {s : State} {i : Nat} (inside : i < s.marks.size) (j : Nat) :
    (s.finish i).mark j = if i = j then .finished else s.mark j := mark_set s i j .finished inside

/-- A state stays consistent when an untouched class is entered. -/
theorem Consistent.enter {s : State} {i : Nat} (h : Consistent n parents s) (inside : i < n)
    (untouched : s.mark i = .untouched) : Consistent n parents (s.enter i) where
  size := by simp [State.enter, h.size]
  nodup := h.nodup
  finished j := by
    rw [mark_enter (by rwa [h.size])]
    change j ∈ s.done ↔ _
    rw [h.finished]
    by_cases same : i = j
    · subst same
      simp [untouched]
    · simp [same]
  behind := h.behind

/-- It stays so when a class is finished behind its parents. -/
theorem Consistent.finish {s : State} {i : Nat} (h : Consistent n parents s) (inside : i < n)
    (entered : s.mark i = .entered) (ready : ∀ p ∈ parents i, p ∈ s.done) :
    Consistent n parents (s.finish i) where
  size := by simp [State.finish, h.size]
  nodup := by
    refine List.nodup_cons.mpr ⟨fun mem => ?_, h.nodup⟩
    have finished := ((h.finished i).mp mem).2
    rw [entered] at finished
    cases finished
  finished j := by
    rw [mark_finish (by rwa [h.size])]
    change j ∈ i :: s.done ↔ _
    rw [List.mem_cons, h.finished]
    by_cases same : i = j
    · subst same
      simp [inside]
    · have differ : ¬ j = i := fun h => same h.symm
      simp [same, differ]
  behind := ⟨ready, h.behind⟩

/-- Visiting one number after another, where each visit advances and finishes
its own. -/
theorem advance_foldlM {step : State → Nat → Except Nat State}
    (each : ∀ {s s' i}, i < n → Consistent n parents s → step s i = .ok s' →
      Advance n parents s s' ∧ i ∈ s'.done)
    {items : List Nat} (inside : ∀ i ∈ items, i < n) {s s' : State} (h : Consistent n parents s)
    (run : items.foldlM step s = .ok s') : Advance n parents s s' ∧ ∀ i ∈ items, i ∈ s'.done := by
  induction items generalizing s with
  | nil =>
    cases run
    exact ⟨.refl h, fun _ mem => nomatch mem⟩
  | cons i items ih =>
    obtain ⟨s₁, first, rest⟩ := foldlM_cons_eq_ok.mp run
    obtain ⟨head, done⟩ := each (inside i List.mem_cons_self) h first
    obtain ⟨tail, others⟩ := ih (fun j hj => inside j (List.mem_cons_of_mem _ hj))
      head.consistent rest
    refine ⟨head.trans tail, fun j hj => ?_⟩
    rcases List.mem_cons.mp hj with rfl | later
    · exact tail.grows _ done
    · exact others j later

/-- A visit advances, and the class that is visited is done. -/
theorem advance_visit (inside : ∀ i, ∀ p ∈ parents i, p < n) (fuel : Nat) {s s' : State} {i : Nat}
    (hi : i < n) (h : Consistent n parents s) (run : visit parents fuel s i = .ok s') :
    Advance n parents s s' ∧ i ∈ s'.done := by
  induction fuel generalizing s s' i with
  | zero => cases run
  | succ fuel ih =>
    rw [visit] at run
    split at run
    · rename_i finished
      cases run
      exact ⟨.refl h, (h.finished i).mpr ⟨hi, finished⟩⟩
    · cases run
    · rename_i untouched
      obtain ⟨s₁, parentsRun, same⟩ := bind_eq_ok.mp run
      cases same
      have start := h.enter hi untouched
      obtain ⟨fold, ready⟩ := advance_foldlM (fun hj => ih hj) (inside i) start parentsRun
      have entered : s₁.mark i = .entered := by
        rw [fold.entered, mark_enter (by rwa [h.size]), if_pos rfl]
      refine ⟨⟨fold.consistent.finish hi entered ready, fun j hj => ?_, fun j => ?_⟩,
        List.mem_cons_self⟩
      · exact List.mem_cons_of_mem _ (fold.grows j hj)
      · rw [mark_finish (by rwa [fold.consistent.size])]
        by_cases same : i = j
        · subst same
          simp [untouched]
        · rw [if_neg same, fold.entered, mark_enter (by rwa [h.size]), if_neg same]

/-- At the start nothing is touched, which is consistent. -/
theorem consistent_start (n : Nat) (parents : Nat → List Nat) :
    Consistent n parents ⟨Array.replicate n .untouched, []⟩ where
  size := by simp
  nodup := List.nodup_nil
  finished i := by
    simp only [List.not_mem_nil, State.mark, Array.getD_eq_getD_getElem?, Array.getElem?_replicate,
      false_iff, not_and]
    intro inside
    simp [inside]
  behind := trivial

/-- The numbers below `n`, each of them once and behind its parents. -/
theorem sorted_spec (inside : ∀ i, ∀ p ∈ parents i, p < n) {positions : List Nat}
    (run : sorted n parents = .ok positions) :
    positions.Perm (List.range n) ∧ ParentsBehind parents positions.reverse := by
  obtain ⟨s, visits, same⟩ := bind_eq_ok.mp run
  cases same
  obtain ⟨advance, all⟩ := advance_foldlM (advance_visit inside (n + 1))
    (fun i hi => List.mem_range.mp hi) (consistent_start n parents) visits
  have same : ∀ i, i ∈ s.done ↔ i ∈ List.range n := fun i =>
    ⟨fun hi => List.mem_range.mpr ((advance.consistent.finished i).mp hi).1, all i⟩
  have perm : s.done.Perm (List.range n) :=
    (List.perm_ext_iff_of_nodup advance.consistent.nodup List.nodup_range).mpr same
  refine ⟨(List.reverse_perm _).trans perm, ?_⟩
  rw [List.reverse_reverse]
  exact advance.consistent.behind

end Visit

/-! ## Numbers that follow their parents already -/

section Listed

variable {n : Nat} {parents : Nat → List Nat}

/-- Steps that change nothing change nothing together. -/
theorem foldlM_same {σ ε ι : Type} {step : σ → ι → Except ε σ} {s : σ} {items : List ι}
    (same : ∀ i ∈ items, step s i = .ok s) : items.foldlM step s = .ok s := by
  induction items with
  | nil => rfl
  | cons i items ih =>
    rw [List.foldlM_cons, same i List.mem_cons_self]
    exact ih fun j hj => same j (List.mem_cons_of_mem _ hj)

/-- The state behind the first `k` numbers, if each of them was ready when it
was reached. -/
structure Through (n k : Nat) (s : State) : Prop where
  size : s.marks.size = n
  done : s.done = (List.range k).reverse
  mark : ∀ i, i < n → s.mark i = if i < k then .finished else .untouched

/-- Where parents come first, a visit does the next class and no other. -/
theorem Through.visit {k : Nat} {s : State} (h : Through n k s) (inside : k < n)
    (earlier : ∀ p ∈ parents k, p < k) :
    ∃ s', Hierarchy.visit parents (n + 1) s k = .ok s' ∧ Through n (k + 1) s' := by
  have size : k < s.marks.size := by rwa [h.size]
  have untouched : s.mark k = .untouched := by rw [h.mark k inside, if_neg (by omega)]
  have ready : (parents k).foldlM (Hierarchy.visit parents n) (s.enter k) = .ok (s.enter k) := by
    refine foldlM_same fun p hp => ?_
    have before := earlier p hp
    obtain ⟨m, rfl⟩ : ∃ m, n = m + 1 := ⟨n - 1, by omega⟩
    have finished : (s.enter k).mark p = .finished := by
      rw [mark_enter size, if_neg (by omega), h.mark p (by omega), if_pos before]
    rw [Hierarchy.visit, finished]
  refine ⟨(s.enter k).finish k, ?_, ?_, ?_, fun i hi => ?_⟩
  · rw [Hierarchy.visit, untouched]
    simp only [ready]
    rfl
  · simp [State.finish, State.enter, h.size]
  · rw [List.range_succ, List.reverse_append]
    exact congrArg (k :: ·) h.done
  · have entered : k < (s.enter k).marks.size := by simpa [State.enter] using size
    rw [mark_finish entered, mark_enter size, h.mark i hi]
    by_cases same : k = i
    · subst same
      simp
    · rw [if_neg same, if_neg same]
      by_cases before : i < k
      · rw [if_pos before, if_pos (by omega)]
      · rw [if_neg before, if_neg (by omega)]

/-- So classes behind their parents stay as they are. -/
theorem sorted_of_listed (earlier : ∀ i, ∀ p ∈ parents i, p < i) :
    sorted n parents = .ok (List.range n) := by
  have through : ∀ k, k ≤ n → ∃ s, (List.range k).foldlM (visit parents (n + 1))
      ⟨Array.replicate n .untouched, []⟩ = .ok s ∧ Through n k s := by
    intro k
    induction k with
    | zero =>
      refine fun _ => ⟨_, rfl, by simp, rfl, fun i hi => ?_⟩
      simp [State.mark, Array.getD_eq_getD_getElem?, hi]
    | succ k ih =>
      intro inside
      obtain ⟨s, run, h⟩ := ih (by omega)
      obtain ⟨s', step, h'⟩ := h.visit inside (earlier k)
      refine ⟨s', ?_, h'⟩
      rw [List.range_succ, List.foldlM_append, run]
      change (List.foldlM (visit parents (n + 1)) s [k]) = _
      rw [List.foldlM_cons, step]
      rfl
  obtain ⟨s, run, h⟩ := through n (Nat.le_refl n)
  rw [sorted, run]
  change Except.ok s.done.reverse = _
  rw [h.done, List.reverse_reverse]

end Listed

/-! ## Classes -/

section Classes

variable {classes : List ClassDecl}

/-- Every class stands behind the classes of the list that it builds on. -/
def ParentsFirst (classes : List ClassDecl) : Prop :=
  ∀ (i j : Nat) (c d : ClassDecl),
    classes[i]? = some c → classes[j]? = some d → d.type ∈ c.parents → j < i

/-- It is enough to look at the positions that there are. -/
theorem parentsFirst_of_getElem {classes : List ClassDecl}
    (first : ∀ i j : Fin classes.length, classes[j].type ∈ classes[i].parents → j < i) :
    ParentsFirst classes := by
  intro i j c d hc hd parent
  obtain ⟨inside, rfl⟩ := List.getElem?_eq_some_iff.mp hc
  obtain ⟨inside', rfl⟩ := List.getElem?_eq_some_iff.mp hd
  exact first ⟨i, inside⟩ ⟨j, inside'⟩ parent

/-- A type is that of the last class that has it. -/
theorem getElem?_lastOfType (classes : List ClassDecl) (t : Descriptor) :
    (lastOfType classes)[t]? = lastFor (classes.zipIdx.map fun x => (x.1.type, x.2)) t := by
  have filled := getElem?_foldl_insert (classes.zipIdx.map fun x => (x.1.type, x.2)) t ∅
  rw [List.foldl_map] at filled
  rw [lastOfType]
  exact filled.trans (by simp)

/-- That class has it. -/
theorem of_lastOfType {t : Descriptor} {i : Nat} (found : (lastOfType classes)[t]? = some i) :
    ∃ c, classes[i]? = some c ∧ c.type = t := by
  rw [getElem?_lastOfType] at found
  obtain ⟨⟨c, j⟩, mem, same⟩ := List.mem_map.mp (mem_of_lastFor found)
  cases same
  exact ⟨c, List.mk_mem_zipIdx_iff_getElem?.mp mem, rfl⟩

/-- Where every type occurs once, a type is found where its class stands. -/
theorem lastOfType_of_distinct (distinct : (classes.map ClassDecl.type).Nodup) {i : Nat}
    {c : ClassDecl} (stands : classes[i]? = some c) : (lastOfType classes)[c.type]? = some i := by
  rw [getElem?_lastOfType]
  refine lastFor_of_unique (List.mem_map.mpr ⟨(c, i), List.mk_mem_zipIdx_iff_getElem?.mpr stands, rfl⟩)
    fun j hj => ?_
  obtain ⟨⟨d, k⟩, mem, same⟩ := List.mem_map.mp hj
  obtain ⟨type, rfl⟩ : d.type = c.type ∧ k = j := by simpa using same
  have types : (classes.map ClassDecl.type)[i]? = (classes.map ClassDecl.type)[k]? := by
    rw [List.getElem?_map, List.getElem?_map, stands, List.mk_mem_zipIdx_iff_getElem?.mp mem]
    exact congrArg some type.symm
  have inside := (List.getElem?_eq_some_iff.mp stands).1
  exact ((List.getElem?_inj (by rwa [List.length_map]) distinct).mp types).symm

/-- The parents of a position. -/
def parentsOf (classes : List ClassDecl) (i : Nat) : List Nat := (parentTable classes).getD i []

/-- The parents of a class are the last classes of the types that it names. -/
theorem mem_parentsOf {i j : Nat} :
    j ∈ parentsOf classes i ↔ ∃ c t, classes[i]? = some c ∧ t ∈ c.parents
      ∧ (lastOfType classes)[t]? = some j := by
  simp only [parentsOf, parentTable, Array.getD_eq_getD_getElem?, List.getElem?_toArray,
    List.getElem?_map]
  cases classes[i]? with
  | none => simp
  | some c => simp [List.mem_filterMap]

/-- The parents are found among the classes themselves. -/
theorem parentsOf_eq (classes : List ClassDecl) : parentsOf classes = fun i =>
    (classes.map fun c => c.parents.filterMap
      (lastFor (classes.zipIdx.map fun x => (x.1.type, x.2)))).getD i [] := by
  funext i
  simp only [parentsOf, parentTable, getElem?_lastOfType, Array.getD_eq_getD_getElem?,
    List.getElem?_toArray, List.getD_eq_getElem?_getD]

/-- They are classes of the file. -/
theorem parentsOf_lt {i j : Nat} (h : j ∈ parentsOf classes i) : j < classes.length := by
  obtain ⟨_, _, _, _, found⟩ := mem_parentsOf.mp h
  obtain ⟨_, stands, _⟩ := of_lastOfType found
  exact (List.getElem?_eq_some_iff.mp stands).1

/-- The order of classes is that of the sort, whose fault is named by its class. -/
theorem order_eq (classes : List ClassDecl) :
    order classes = match sorted classes.length (parentsOf classes) with
      | .ok positions => .ok positions
      | .error i => .error (.cyclicHierarchy (classes[i]?.elim "" (·.type.text))) := rfl

/-- Where there is an order, the sort has found it. -/
theorem sorted_of_order {positions : List Nat} (run : order classes = .ok positions) :
    sorted classes.length (parentsOf classes) = .ok positions := by
  rw [order_eq] at run
  split at run
  · rename_i found
    cases run
    exact found
  · cases run

/-- The order of classes depends on their types and their parents alone. -/
theorem order_congr {cs ds : List ClassDecl}
    (types : cs.map ClassDecl.type = ds.map ClassDecl.type)
    (parents : cs.map ClassDecl.parents = ds.map ClassDecl.parents) : order cs = order ds := by
  have last (es : List ClassDecl) : lastOfType es
      = (es.map ClassDecl.type).zipIdx.foldl (fun found e => found.insert e.1 e.2) {} := by
    rw [lastOfType, List.zipIdx_map, List.foldl_map]
    rfl
  have table (es : List ClassDecl) : parentTable es
      = ((es.map ClassDecl.parents).map fun ps => ps.filterMap ((lastOfType es)[·]?)).toArray := by
    rw [parentTable, List.map_map]
    rfl
  have named (es : List ClassDecl) (i : Nat) : es[i]?.elim "" (·.type.text)
      = (es.map ClassDecl.type)[i]?.elim "" (·.text) := by
    rw [List.getElem?_map]
    cases es[i]? <;> rfl
  have count : cs.length = ds.length := by
    simpa only [List.length_map] using congrArg List.length types
  simp only [order, table, last, named, types, parents, count]

/-- The order has each position once. -/
theorem order_perm {positions : List Nat} (run : order classes = .ok positions) :
    positions.Perm (List.range classes.length) :=
  (sorted_spec (fun _ _ => parentsOf_lt) (sorted_of_order run)).1

/-- What stands in the order of the classes already stays as it is. -/
theorem order_of_parentsFirst (h : ParentsFirst classes) :
    order classes = .ok (List.range classes.length) := by
  have earlier : ∀ i, ∀ p ∈ parentsOf classes i, p < i := by
    intro i p hp
    obtain ⟨c, t, stands, parent, found⟩ := mem_parentsOf.mp hp
    obtain ⟨d, stands', rfl⟩ := of_lastOfType found
    exact h i p c d stands stands' parent
  have run := sorted_of_listed (n := classes.length) earlier
  rw [order_eq, run]

/-- Where parents stand behind, they are listed. -/
theorem mem_of_parentsBehind {parents : Nat → List Nat} {numbers : List Nat} {i p : Nat}
    (behind : ParentsBehind parents numbers) (mem : i ∈ numbers) (parent : p ∈ parents i) :
    p ∈ numbers := by
  induction numbers with
  | nil => cases mem
  | cons j numbers ih =>
    rcases List.mem_cons.mp mem with rfl | later
    · exact List.mem_cons_of_mem _ (behind.1 p parent)
    · exact List.mem_cons_of_mem _ (ih behind.2 later)

/-- The parents of a number stand behind it, each at one place only. -/
theorem lt_of_parentsBehind {parents : Nat → List Nat} {numbers : List Nat}
    (behind : ParentsBehind parents numbers) (nodup : numbers.Nodup) {a b i p : Nat}
    (ha : numbers[a]? = some i) (hb : numbers[b]? = some p) (parent : p ∈ parents i) : a < b := by
  induction numbers generalizing a b with
  | nil => simp at ha
  | cons j numbers ih =>
    obtain ⟨new, nodup⟩ := List.nodup_cons.mp nodup
    cases b with
    | zero =>
      obtain rfl : j = p := by simpa using hb
      have mem : j ∈ numbers := by
        rcases List.mem_cons.mp (List.mem_of_getElem? ha) with rfl | later
        · exact behind.1 i parent
        · exact mem_of_parentsBehind behind.2 later parent
      exact absurd mem new
    | succ b =>
      cases a with
      | zero => omega
      | succ a =>
        have := ih behind.2 nodup (by simpa using ha) (by simpa using hb)
        omega

/-- Where all items have results, these stand where the items do. -/
theorem getElem?_filterMap {α β : Type} {f : α → Option β} {items : List α}
    (some : ∀ a ∈ items, (f a).isSome) (k : Nat) : (items.filterMap f)[k]? = items[k]?.bind f := by
  induction items generalizing k with
  | nil => simp
  | cons a items ih =>
    obtain ⟨b, found⟩ := Option.isSome_iff_exists.mp (some a List.mem_cons_self)
    rw [List.filterMap_cons_some found]
    cases k with
    | zero => simp [found]
    | succ k => simpa using ih (fun a ha => some a (List.mem_cons_of_mem _ ha)) k

/-- All positions together give all items. -/
theorem filterMap_range {α : Type} (items : List α) :
    (List.range items.length).filterMap (items[·]?) = items := by
  have listed : (List.range items.length).map (items[·]?) = items.map some := by
    refine List.ext_getElem (by simp) fun i h _ => ?_
    rw [List.length_map, List.length_range] at h
    simp [h]
  have filtered := congrArg (List.filterMap id) listed
  rwa [List.filterMap_map, List.filterMap_map, Function.id_comp, Function.id_comp,
    List.filterMap_some] at filtered

/-- In the order of the classes every class stands behind those it builds on. -/
theorem parentsFirst_order {positions : List Nat} (run : order classes = .ok positions)
    (distinct : (classes.map ClassDecl.type).Nodup) :
    ParentsFirst (positions.filterMap (classes[·]?)) := by
  have perm := order_perm run
  have behind := (sorted_spec (fun _ _ => parentsOf_lt) (sorted_of_order run)).2
  have inside : ∀ i ∈ positions, (classes[i]?).isSome := by
    intro i hi
    simpa using List.mem_range.mp (perm.mem_iff.mp hi)
  intro a b c d hc hd parent
  rw [getElem?_filterMap inside, Option.bind_eq_some_iff] at hc hd
  obtain ⟨i, hi, hc⟩ := hc
  obtain ⟨j, hj, hd⟩ := hd
  have isParent : j ∈ parentsOf classes i :=
    mem_parentsOf.mpr ⟨c, d.type, hc, parent, lastOfType_of_distinct distinct hd⟩
  have ha := (List.getElem?_eq_some_iff.mp hi).1
  have hb := (List.getElem?_eq_some_iff.mp hj).1
  have nodup : positions.reverse.Nodup :=
    List.nodup_reverse.mpr (perm.nodup_iff.mpr List.nodup_range)
  have later := lt_of_parentsBehind (a := positions.length - 1 - a) (b := positions.length - 1 - b)
    behind nodup
    (by rw [List.getElem?_reverse (by omega), show positions.length - 1 - (positions.length - 1 - a)
      = a by omega, hi])
    (by rw [List.getElem?_reverse (by omega), show positions.length - 1 - (positions.length - 1 - b)
      = b by omega, hj]) isParent
  omega

end Classes

end StubJar.Container.Hierarchy
