import Mathlib.Data.List.Nodup
import StubJar.Jar.Zip
import StubJar.Proofs.Text.ByteOrder
import StubJar.Proofs.Translation.Archives

/-!
# Additions to an archive

An archive is filled by one addition after another, each of which is accepted or refused.
What it comes to is said by `Filled`: the first addition under a path that is not that of the
manifest is accepted, all others are refused and change nothing, and the accepted ones are
listed behind the manifest in the order of the bytes of their paths (`filled_run`). So where no
path is used twice, the order of the additions does not matter (`entries_run_perm`).

All of it follows from what is found under a path after additions (`getElem?_run`).
-/

namespace StubJar.Jar.Archive

open StubJar.Translation

/-- Data that is to be added, behind the path that it is to have. -/
abbrev Addition := String × List UInt8

/-- The archive after an addition, and whether it was accepted. An archive that refuses an
addition stays as it is. -/
def add (a : Archive) (x : Addition) : Archive × Bool :=
  match a.add? x.1 x.2 with
  | some b => (b, true)
  | none => (a, false)

/-- The archive after additions, and for each of them whether it was accepted. -/
def run (a : Archive) : List Addition → Archive × List Bool
  | [] => (a, [])
  | x :: xs => ((run (a.add x).1 xs).1, (a.add x).2 :: (run (a.add x).1 xs).2)

/-- What an archive is after additions to the empty one, given for each of them whether it was
accepted. -/
structure Filled (xs : List Addition) (a : Archive) (answers : List Bool) : Prop where
  length : answers.length = xs.length
  accepted : ∀ (i : Nat) (x : Addition), xs[i]? = some x → (answers[i]? = some true ↔
    x.1 ≠ manifestPath ∧ ¬ ∃ (j : Nat) (y : Addition),
      j < i ∧ xs[j]? = some y ∧ y.1 = x.1 ∧ answers[j]? = some true)
  refused : ∀ i : Nat, answers[i]? = some false →
    (empty.run (xs.take (i + 1))).1 = (empty.run (xs.take i)).1
  size : a.size = answers.count true
  listed : ∃ others, a.entries = ⟨manifestPath, .deflated, Text.utf8 manifest⟩ :: others
    ∧ (others.Pairwise fun d e => Text.utf8 d.path < Text.utf8 e.path)
    ∧ ∀ e, e ∈ others ↔ e.packing = .deflated
      ∧ (∃ (i : Nat) (x : Addition),
        xs[i]? = some x ∧ x.1 = e.path ∧ answers[i]? = some true)
      ∧ xs.find? (·.1 == e.path) = some (e.path, e.data)

/-! ## One addition -/

/-- The data that an addition puts under a path. -/
def given (path : String) (x : Addition) : Option (List UInt8) :=
  if path ≠ manifestPath ∧ x.1 = path then some x.2 else none

/-- A path is taken by the manifest or by what was added. -/
theorem isTaken_iff {a : Archive} {path : String} :
    a.isTaken path = true ↔ path = manifestPath ∨ (a.added[path]?).isSome = true := by
  rw [isTaken, Bool.or_eq_true, beq_iff_eq, Std.TreeMap.contains_eq_isSome_getElem?]

/-- An addition under a path that is taken changes nothing. -/
theorem add_of_taken {a : Archive} {x : Addition} (taken : a.isTaken x.1 = true) :
    a.add x = (a, false) := by
  rw [add, add?, if_pos taken]

/-- Any other is accepted. -/
theorem add_of_free {a : Archive} {x : Addition} (free : ¬ a.isTaken x.1 = true) :
    a.add x = (⟨a.added.insert x.1 x.2⟩, true) := by
  rw [add, add?, if_neg free]

/-- What is accepted is neither the manifest nor there already. -/
theorem add_accepts {a : Archive} {x : Addition} :
    (a.add x).2 = true ↔ x.1 ≠ manifestPath ∧ a.added[x.1]? = none := by
  have free : (a.add x).2 = true ↔ ¬ a.isTaken x.1 = true := by
    by_cases taken : a.isTaken x.1 = true
    · rw [add_of_taken taken]
      exact ⟨nofun, fun free => absurd taken free⟩
    · rw [add_of_free taken]
      exact ⟨fun _ => taken, fun _ => rfl⟩
  rw [free, isTaken_iff, not_or, Option.not_isSome_iff_eq_none]

/-- An archive that refuses an addition stays as it is. -/
theorem add_refuses {a : Archive} {x : Addition} (refused : (a.add x).2 = false) :
    (a.add x).1 = a := by
  by_cases taken : a.isTaken x.1 = true
  · rw [add_of_taken taken]
  · rw [add_of_free taken] at refused
    cases refused

/-- What is found under a path stays there. -/
theorem getElem?_add (a : Archive) (x : Addition) (path : String) :
    (a.add x).1.added[path]? = a.added[path]?.or (given path x) := by
  by_cases taken : a.isTaken x.1 = true
  · rw [add_of_taken taken, given]
    split
    · rename_i named
      obtain ⟨other, rfl⟩ := named
      have found := (isTaken_iff.mp taken).resolve_left other
      rw [Option.or_of_isSome found]
    · rw [Option.or_none]
  · rw [add_of_free taken, Std.TreeMap.getElem?_insert]
    rw [isTaken_iff, not_or, Option.not_isSome_iff_eq_none] at taken
    obtain ⟨other, missing⟩ := taken
    split
    · rename_i same
      obtain rfl := Std.LawfulEqCmp.compare_eq_iff_eq.mp same
      rw [missing, given, if_pos ⟨other, rfl⟩, Option.none_or]
    · rename_i apart
      have other := mt Std.LawfulEqCmp.compare_eq_iff_eq.mpr apart
      rw [given, if_neg fun named => other named.2, Option.or_none]

/-- An addition that is accepted counts. -/
theorem size_add (a : Archive) (x : Addition) :
    (a.add x).1.size = a.size + (a.add x).2.toNat := by
  by_cases taken : a.isTaken x.1 = true
  · rw [add_of_taken taken]
    rfl
  · have missing : ¬ a.added.contains x.1 = true := by
      rw [isTaken, Bool.or_eq_true, not_or] at taken
      exact taken.2
    rw [add_of_free taken, size, Std.TreeMap.size_insert, if_neg missing]
    rfl

/-! ## Runs -/

/-- Under a path there is what was there before, or else the first addition under it. -/
theorem getElem?_run (a : Archive) (xs : List Addition) (path : String) :
    (a.run xs).1.added[path]? = a.added[path]?.or (xs.findSome? (given path)) := by
  induction xs generalizing a with
  | nil => rw [run, List.findSome?_nil, Option.or_none]
  | cons x xs ih =>
    rw [run, ih, getElem?_add, Option.or_assoc, List.findSome?_cons]
    cases given path x with
    | none => rw [Option.none_or]
    | some data => rw [Option.some_or]

/-- Every addition has an answer. -/
theorem length_run (a : Archive) (xs : List Addition) : (a.run xs).2.length = xs.length := by
  induction xs generalizing a with
  | nil => rfl
  | cons x xs ih => rw [run, List.length_cons, List.length_cons, ih]

/-- As many entries come in as there are acceptances. -/
theorem size_run (a : Archive) (xs : List Addition) :
    (a.run xs).1.size = a.size + (a.run xs).2.count true := by
  induction xs generalizing a with
  | nil => rfl
  | cons x xs ih =>
    rw [run, ih, size_add, List.count_cons, Nat.add_assoc, Nat.add_comm (Bool.toNat _)]
    cases (a.add x).2 <;> rfl

/-- An addition is answered by the archive that those in front of it have come to. -/
theorem answer_run (a : Archive) (xs : List Addition) (i : Nat) : (a.run xs).2[i]? =
    xs[i]?.map fun x => ((a.run (xs.take i)).1.add x).2 := by
  induction xs generalizing a i with
  | nil => rfl
  | cons x xs ih =>
    cases i with
    | zero => rfl
    | succ i => exact ih (a.add x).1 i

/-- One addition more is made to the archive of those before it. -/
theorem run_take_succ (a : Archive) (xs : List Addition) {i : Nat} {x : Addition}
    (stands : xs[i]? = some x) :
    (a.run (xs.take (i + 1))).1 = ((a.run (xs.take i)).1.add x).1 := by
  induction xs generalizing a i with
  | nil => cases stands
  | cons y xs ih =>
    cases i with
    | zero =>
      cases stands
      rfl
    | succ i => exact ih (a.add y).1 stands

/-! ## Runs on the empty archive -/

/-- Under a path stands what was given first for it. -/
theorem getElem?_run_empty (xs : List Addition) (path : String) :
    (empty.run xs).1.added[path]? = xs.findSome? (given path) := by
  rw [getElem?_run, show empty.added[path]? = none from Std.TreeMap.getElem?_emptyc,
    Option.none_or]

/-- Nothing is given for the manifest, and for any other path the data of its first addition.
-/
theorem findSome?_given {xs : List Addition} {path : String} {data : List UInt8} :
    xs.findSome? (given path) = some data ↔
      path ≠ manifestPath ∧ xs.find? (·.1 == path) = some (path, data) := by
  induction xs with
  | nil => exact ⟨nofun, fun found => nomatch found.2⟩
  | cons x xs ih =>
    rw [List.findSome?_cons, List.find?_cons, given]
    by_cases reserved : path = manifestPath
    · rw [if_neg fun named => named.1 reserved]
      exact ih.trans ⟨fun found => absurd reserved found.1, fun found => absurd reserved found.1⟩
    · by_cases same : x.1 = path
      · obtain rfl := same
        rw [if_pos ⟨reserved, rfl⟩, beq_self_eq_true]
        simp only [Option.some.injEq, Prod.ext_iff, true_and]
        exact ⟨fun found => ⟨reserved, found⟩, fun found => found.2⟩
      · rw [if_neg fun named => same named.2, beq_false_of_ne same]
        exact ih

/-- An addition is accepted if none in front of it has its path. -/
theorem accepts_iff {xs : List Addition} {i : Nat} {x : Addition} (stands : xs[i]? = some x) :
    (empty.run xs).2[i]? = some true ↔
      x.1 ≠ manifestPath ∧ ∀ (j : Nat) (y : Addition), j < i → xs[j]? = some y → y.1 ≠ x.1 := by
  rw [answer_run, stands, Option.map_some, Option.some.injEq, add_accepts, getElem?_run_empty,
    List.findSome?_eq_none_iff]
  refine and_congr_right fun other => ?_
  constructor
  · intro nothing j y before earlier same
    have mem : y ∈ xs.take i :=
      List.mem_of_getElem? ((List.getElem?_take_of_lt before).trans earlier)
    have given_none := nothing y mem
    rw [given, if_pos ⟨other, same⟩] at given_none
    cases given_none
  · intro apart y mem
    obtain ⟨j, found⟩ := List.mem_iff_getElem?.mp mem
    rw [List.getElem?_take] at found
    split at found
    · exact if_neg fun named => apart j y ‹_› found named.2
    · cases found

/-- The first addition under a path that is not reserved is accepted. -/
theorem exists_accepted {xs : List Addition} {path : String} {x : Addition}
    (other : path ≠ manifestPath) (found : xs.find? (·.1 == path) = some x) :
    ∃ i : Nat, xs[i]? = some x ∧ x.1 = path ∧ (empty.run xs).2[i]? = some true := by
  obtain ⟨same, i, inside, stands, first⟩ := List.find?_eq_some_iff_getElem.mp found
  obtain rfl := eq_of_beq same
  have stands : xs[i]? = some x := stands ▸ List.getElem?_eq_getElem inside
  refine ⟨i, stands, rfl, (accepts_iff stands).mpr ⟨other, fun j y before earlier same => ?_⟩⟩
  obtain ⟨inside, rfl⟩ := List.getElem?_eq_some_iff.mp earlier
  have apart := first j before
  rw [same, beq_self_eq_true] at apart
  cases apart

/-- Of the additions under a path the first that is accepted is the first of all. -/
theorem apart_of_none_accepted {xs : List Addition} {i : Nat} {x : Addition}
    (other : x.1 ≠ manifestPath) (none : ¬ ∃ (j : Nat) (y : Addition),
      j < i ∧ xs[j]? = some y ∧ y.1 = x.1 ∧ (empty.run xs).2[j]? = some true) (j : Nat) :
    ∀ y : Addition, j < i → xs[j]? = some y → y.1 ≠ x.1 := by
  induction j using Nat.strong_induction_on with
  | h j ih =>
    intro y before earlier same
    refine none ⟨j, y, before, earlier, same, (accepts_iff earlier).mpr ⟨same ▸ other, ?_⟩⟩
    intro k z first stands
    exact same ▸ ih k first z (Nat.lt_trans first before) stands

/-- The entries are what was added, compressed. -/
theorem mem_entries {a : Archive} {e : Entry} : e ∈ a.added.toList.map entryAt ↔
    e.packing = .deflated ∧ a.added[e.path]? = some e.data := by
  rw [List.mem_map]
  constructor
  · rintro ⟨⟨path, data⟩, mem, rfl⟩
    exact ⟨rfl, Std.TreeMap.mem_toList_iff_getElem?_eq_some.mp mem⟩
  · rintro ⟨packed, found⟩
    refine ⟨(e.path, e.data), Std.TreeMap.mem_toList_iff_getElem?_eq_some.mpr found, ?_⟩
    rw [entryAt, ← packed]

/-- However an archive is filled, it is as it should be. -/
theorem filled_run (xs : List Addition) : Filled xs (empty.run xs).1 (empty.run xs).2 where
  length := length_run empty xs
  accepted := by
    intro i x stands
    rw [accepts_iff stands]
    refine and_congr_right fun other => ⟨fun apart => ?_, apart_of_none_accepted other⟩
    rintro ⟨j, y, before, earlier, same, _⟩
    exact apart j y before earlier same
  refused := by
    intro i answer
    rw [answer_run] at answer
    obtain ⟨x, stands, answer⟩ := Option.map_eq_some_iff.mp answer
    rw [run_take_succ empty xs stands, add_refuses answer]
  size := by
    rw [size_run, show empty.size = 0 from rfl, Nat.zero_add]
  listed := by
    refine ⟨_, rfl, (entries_ascending _).imp Text.utf8_lt_of_lt, fun e => ?_⟩
    refine mem_entries.trans (and_congr_right fun _ => ?_)
    rw [getElem?_run_empty, findSome?_given]
    refine and_congr_left fun found => ⟨fun other => ?_, ?_⟩
    · obtain ⟨i, accepted⟩ := exists_accepted other found
      exact ⟨i, _, accepted⟩
    · rintro ⟨i, x, stands, same, accepted⟩
      exact same ▸ ((accepts_iff stands).mp accepted).1

/-! ## The order of additions -/

/-- Archives with the same data under all paths have the same entries. -/
theorem entries_congr {a b : Archive} (same : ∀ path : String, a.added[path]? = b.added[path]?) :
    a.entries = b.entries := by
  rw [entries, entries, (Std.TreeMap.Equiv.of_forall_constGet?_eq same).toList_eq]

/-- Where no path is used twice, each addition is found under its own. -/
theorem find?_path {xs : List Addition} (distinct : (xs.map Prod.fst).Nodup) {path : String}
    {x : Addition} : xs.find? (·.1 == path) = some x ↔ x ∈ xs ∧ x.1 = path := by
  constructor
  · intro found
    have named := List.find?_some found
    exact ⟨List.mem_of_find?_eq_some found, beq_iff_eq.mp named⟩
  · rintro ⟨mem, rfl⟩
    have some_found : (xs.find? (·.1 == x.1)).isSome = true :=
      List.find?_isSome.mpr ⟨x, mem, beq_self_eq_true x.1⟩
    obtain ⟨y, found⟩ := Option.isSome_iff_exists.mp some_found
    have named := List.find?_some found
    rw [found, List.inj_on_of_nodup_map distinct (List.mem_of_find?_eq_some found) mem
      (beq_iff_eq.mp named)]

/-- Additions under distinct paths come to the same entries in any order. -/
theorem entries_run_perm {xs ys : List Addition} (perm : xs.Perm ys)
    (distinct : (xs.map Prod.fst).Nodup) :
    (empty.run xs).1.entries = (empty.run ys).1.entries := by
  have distinct' := (perm.map Prod.fst).nodup_iff.mp distinct
  refine entries_congr fun path => ?_
  rw [getElem?_run_empty, getElem?_run_empty]
  ext data
  rw [findSome?_given, findSome?_given, find?_path distinct, find?_path distinct', perm.mem_iff]

end StubJar.Jar.Archive
