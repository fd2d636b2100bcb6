import Mathlib.Data.List.Forall2
import Mathlib.Data.List.Nodup
import StubJar.Order.Table
import StubJar.Proofs.Order.Sorting

/-!
# What a sorted table holds

A table of given items holds each of them once (`mem_items`, `nodup_items`)
in ascending order of the keys, and every item stands where the table says
that it stands (`getElem?_indexOf`). The position of an item follows its key
(`follows`), and the table is determined by which items there are
(`ofItems_eq`): neither their order nor their repetition matters.

A map that is filled from a list finds under a key the last item the list has
for it (`getElem?_ofList`).
-/

namespace StubJar.Order

/-- The item that a list of pairs has last for a key. -/
def lastFor {κ β : Type} [BEq κ] : List (κ × β) → κ → Option β
  | [], _ => none
  | (key, b) :: items, k => (lastFor items k).or (if key == k then some b else none)

section Maps

variable {κ β γ : Type} [BEq κ] [LawfulBEq κ]

/-- A map that is filled from a list is filled with one item after another. -/
theorem ofList_eq_foldl {κ β : Type} [BEq κ] [Hashable κ] (items : List (κ × β)) :
    Std.HashMap.ofList items = items.foldl (fun found (k, b) => found.insert k b) ∅ := by
  rw [Std.HashMap.ofList_eq_insertMany_empty]
  generalize (∅ : Std.HashMap κ β) = found
  induction items generalizing found with
  | nil => exact Std.HashMap.insertMany_nil
  | cons a items ih =>
    rw [Std.HashMap.insertMany_cons, ih]
    rfl

/-- A map into which the items of a list are put finds the last item of a key. -/
theorem getElem?_foldl_insert [Hashable κ] (items : List (κ × β)) (k : κ)
    (found : Std.HashMap κ β) :
    (items.foldl (fun found (k, b) => found.insert k b) found)[k]? =
      (lastFor items k).or found[k]? := by
  induction items generalizing found with
  | nil => rfl
  | cons a items ih =>
    rw [List.foldl_cons, ih, lastFor, Std.HashMap.getElem?_insert, Option.or_assoc]
    cases a.1 == k <;> rfl

/-- So does a map that is filled from a list. -/
theorem getElem?_ofList [Hashable κ] (items : List (κ × β)) (k : κ) :
    (Std.HashMap.ofList items)[k]? = lastFor items k := by
  rw [ofList_eq_foldl, getElem?_foldl_insert, Std.HashMap.getElem?_empty, Option.or_none]

/-- Nothing is found for a key that is not there. -/
theorem lastFor_eq_none {items : List (κ × β)} {k : κ} :
    lastFor items k = none ↔ k ∉ items.map Prod.fst := by
  induction items with
  | nil => simp [lastFor]
  | cons a items ih =>
    rw [lastFor, Option.or_eq_none_iff, ih, List.map_cons, List.mem_cons, not_or, and_comm]
    refine and_congr ?_ Iff.rfl
    by_cases same : a.1 = k
    · simp [same]
    · have differ : ¬ k = a.1 := fun h => same h.symm
      simp [same, differ]

/-- What is found for a key is listed with it. -/
theorem mem_of_lastFor {items : List (κ × β)} {k : κ} {b : β} (h : lastFor items k = some b) :
    (k, b) ∈ items := by
  induction items with
  | nil => cases h
  | cons a items ih =>
    rw [lastFor] at h
    cases later : lastFor items k with
    | some c =>
      rw [later, Option.some_or] at h
      cases h
      exact List.mem_cons_of_mem _ (ih later)
    | none =>
      rw [later, Option.none_or] at h
      split at h
      · rename_i same
        cases h
        rw [← eq_of_beq same]
        exact List.mem_cons_self
      · cases h

/-- A key with one item finds it. -/
theorem lastFor_of_unique {items : List (κ × β)} {k : κ} {b : β} (mem : (k, b) ∈ items)
    (unique : ∀ c, (k, c) ∈ items → c = b) : lastFor items k = some b := by
  cases found : lastFor items k with
  | none => exact absurd (List.mem_map_of_mem mem) (lastFor_eq_none.mp found)
  | some c => rw [unique c (mem_of_lastFor found)]

/-- Other keys find the same items where they tell the given one from the rest. -/
theorem lastFor_map_key {ι : Type} [BEq ι] [LawfulBEq ι] {key : κ → ι} {items : List (κ × β)} {k : κ}
    (apart : ∀ a ∈ items, key a.1 = key k → a.1 = k) :
    lastFor (items.map fun a => (key a.1, a.2)) (key k) = lastFor items k := by
  induction items with
  | nil => rfl
  | cons a items ih =>
    have same : (key a.1 == key k) = (a.1 == k) := by
      rw [Bool.eq_iff_iff, beq_iff_eq, beq_iff_eq]
      exact ⟨apart a List.mem_cons_self, congrArg key⟩
    rw [List.map_cons, lastFor, lastFor, ih fun b hb => apart b (List.mem_cons_of_mem _ hb), same]

/-- Among items in rising order the last one of a key is the greatest. -/
theorem lastFor_eq_some_of_rising {items : List (κ × Nat)} (rising : items.Pairwise (·.2 < ·.2))
    {k : κ} {n : Nat} :
    lastFor items k = some n ↔ (k, n) ∈ items ∧ ∀ m, (k, m) ∈ items → m ≤ n := by
  have greatest : ∀ {n}, lastFor items k = some n → ∀ m, (k, m) ∈ items → m ≤ n := by
    induction items with
    | nil => exact fun _ _ mem => nomatch mem
    | cons a items ih =>
      intro n found m mem
      obtain ⟨first, rising⟩ := List.pairwise_cons.mp rising
      rw [lastFor] at found
      cases later : lastFor items k with
      | some n' =>
        rw [later, Option.some_or] at found
        obtain rfl := Option.some.inj found
        rcases List.mem_cons.mp mem with rfl | mem
        · exact Nat.le_of_lt (first _ (mem_of_lastFor later))
        · exact ih rising later m mem
      | none =>
        have absent : (k, m) ∉ items := fun h =>
          lastFor_eq_none.mp later (List.mem_map_of_mem h)
        obtain rfl := (List.mem_cons.mp mem).resolve_right absent
        rw [later, Option.none_or, if_pos (beq_self_eq_true k)] at found
        exact Nat.le_of_eq (Option.some.inj found)
  refine ⟨fun found => ⟨mem_of_lastFor found, greatest found⟩, fun ⟨mem, last⟩ => ?_⟩
  cases found : lastFor items k with
  | none => exact absurd (List.mem_map_of_mem mem) (lastFor_eq_none.mp found)
  | some m => rw [Nat.le_antisymm (last m (mem_of_lastFor found)) (greatest found n mem)]

omit [LawfulBEq κ] in
/-- Two lists with the same keys and related items have related items for
each key. -/
theorem lastFor_zip {R : β → γ → Prop} {bs : List β} {cs : List γ}
    (related : List.Forall₂ R bs cs) (keys : List κ) (k : κ) :
    Option.Rel R (lastFor (keys.zip bs) k) (lastFor (keys.zip cs) k) := by
  induction related generalizing keys with
  | nil => simp only [List.zip_nil_right]; exact .none
  | @cons b c bs cs head _ ih =>
    cases keys with
    | nil => exact .none
    | cons key keys =>
      simp only [List.zip_cons_cons, lastFor]
      have tail := ih keys
      generalize lastFor (keys.zip bs) k = x at tail
      generalize lastFor (keys.zip cs) k = y at tail
      cases tail with
      | some h => exact .some h
      | none =>
        simp only [Option.none_or]
        split
        · exact .some head
        · exact .none

/-- Items that are related to their keys are found under them. -/
theorem lastFor_zip_of_mem {R : κ → γ → Prop} {keys : List κ} {cs : List γ}
    (related : List.Forall₂ R keys cs) {k : κ} (mem : k ∈ keys) :
    ∃ c, lastFor (keys.zip cs) k = some c ∧ R k c := by
  induction related with
  | nil => cases mem
  | @cons key c keys cs head _ ih =>
    rw [List.zip_cons_cons, lastFor]
    by_cases later : k ∈ keys
    · obtain ⟨d, found, holds⟩ := ih later
      exact ⟨d, by rw [found, Option.some_or], holds⟩
    · obtain rfl : k = key := (List.mem_cons.mp mem).resolve_right later
      have absent : k ∉ (keys.zip cs).map Prod.fst := fun h => by
        obtain ⟨x, hx, rfl⟩ := List.mem_map.mp h
        exact later (List.of_mem_zip hx).1
      exact ⟨c, by rw [lastFor_eq_none.mpr absent]; simp, head⟩

end Maps

variable {α : Type} [BEq α] [Hashable α] [LawfulBEq α]

/-! ## Without repetitions -/

/-- What is kept are the items that were found before and those not yet seen. -/
theorem mem_distinctFrom {seen : Std.HashSet α} {found items : List α} {a : α} :
    a ∈ distinctFrom seen found items ↔ a ∈ found ∨ (a ∈ items ∧ a ∉ seen) := by
  induction items generalizing seen found with
  | nil => simp [distinctFrom]
  | cons b items ih =>
    rw [distinctFrom]
    split
    · rename_i known
      have known : b ∈ seen := by simpa using known
      rw [ih]
      constructor
      · rintro (h | ⟨h, hs⟩)
        · exact Or.inl h
        · exact Or.inr ⟨List.mem_cons_of_mem _ h, hs⟩
      · rintro (h | ⟨h, hs⟩)
        · exact Or.inl h
        · rcases List.mem_cons.mp h with rfl | h
          · exact absurd known hs
          · exact Or.inr ⟨h, hs⟩
    · rename_i new
      have new : b ∉ seen := by simpa using new
      rw [ih]
      simp only [List.mem_cons, Std.HashSet.mem_insert, beq_iff_eq, not_or]
      by_cases same : a = b
      · subst same
        simp [new]
      · have differ : ¬ b = a := fun h => same h.symm
        simp [same, differ]

/-- Nothing is kept twice. -/
theorem nodup_distinctFrom {seen : Std.HashSet α} {found items : List α} (nodup : found.Nodup)
    (covered : ∀ a ∈ found, a ∈ seen) : (distinctFrom seen found items).Nodup := by
  induction items generalizing seen found with
  | nil => exact List.nodup_reverse.mpr nodup
  | cons b items ih =>
    rw [distinctFrom]
    split
    · exact ih nodup covered
    · rename_i new
      have new : b ∉ seen := by simpa using new
      apply ih
      · exact List.nodup_cons.mpr ⟨fun h => new (covered b h), nodup⟩
      · intro a ha
        rcases List.mem_cons.mp ha with rfl | h
        · simp
        · simp [covered a h]

/-- Leaving out repetitions loses no item. -/
@[simp] theorem mem_distinct {items : List α} {a : α} : a ∈ distinct items ↔ a ∈ items := by
  simp [distinct, mem_distinctFrom]

/-- What is left has no repetitions. -/
theorem nodup_distinct (items : List α) : (distinct items).Nodup :=
  nodup_distinctFrom List.nodup_nil (by simp)

/-! ## Positions -/

/-- The position of an item is where it stands. -/
theorem getElem?_positions {items : List α} (nodup : items.Nodup) {a : α} (mem : a ∈ items) :
    ∃ i, (positions items)[a]? = some i ∧ items[i]? = some a := by
  obtain ⟨i, hi, rfl⟩ := List.getElem_of_mem mem
  refine ⟨i, ?_, List.getElem?_eq_getElem hi⟩
  have found := getElem?_foldl_insert items.zipIdx items[i] (∅ : Std.HashMap α Nat)
  rw [lastFor_of_unique (List.mk_mem_zipIdx_iff_getElem?.mpr (List.getElem?_eq_getElem hi))]
    at found
  · exact found
  · intro j hj
    have stands := List.mk_mem_zipIdx_iff_getElem?.mp hj
    exact ((List.getElem?_inj hi nodup).mp (by rw [stands, List.getElem?_eq_getElem hi])).symm

namespace Table

variable (key : α → Key) {items : List α}

@[simp] theorem mem_items {a : α} : a ∈ (ofItems key items).items ↔ a ∈ items := by simp [ofItems]

omit [LawfulBEq α] in
@[simp] theorem items_nil : (ofItems key []).items = [] := by
  simp [ofItems, distinct, distinctFrom, sortOn]

omit [LawfulBEq α] in
@[simp] theorem items_singleton (a : α) : (ofItems key [a]).items = [a] := by
  simp [ofItems, distinct, distinctFrom, sortOn]

/-- A table lists nothing twice. -/
theorem nodup_items (items : List α) : (ofItems key items).items.Nodup :=
  (sortOn_perm key _).nodup_iff.mpr (nodup_distinct items)

omit [LawfulBEq α] in
/-- The items of a table ascend by their keys. -/
theorem ascending_items (items : List α) : Ascending key (ofItems key items).items :=
  sortOn_ascending key _

/-- Where the key of an item is its own, the keys ascend strictly. -/
theorem strict_items (items : List α)
    (injective : ∀ a ∈ items, ∀ b ∈ items, key a = key b → a = b) :
    (ofItems key items).items.Pairwise fun a b => key a < key b := by
  have each := (ascending_items key items).and (nodup_items key items)
  refine each.imp_of_mem fun {a b} ha hb related => ?_
  apply lt_of_keyLE related.1
  intro same
  exact related.2 (injective a ((mem_items key).mp ha) b ((mem_items key).mp hb) same)

/-- More items make a table that is no smaller. -/
theorem size_le_of_subset {key key' : α → Key} {items' : List α} (subset : items ⊆ items') :
    (ofItems key items).size ≤ (ofItems key' items').size :=
  (nodup_items key items).length_le_of_subset fun _ mem =>
    (mem_items key').mpr (subset ((mem_items key).mp mem))

/-- A table has no more items than it was made of. -/
theorem size_le (items : List α) : (ofItems key items).size ≤ items.length :=
  (nodup_items key items).length_le_of_subset fun _ => (mem_items key).mp

/-- An item that the table was made of is found, and stands where it is found. -/
theorem index?_of_mem {a : α} (mem : a ∈ items) :
    ∃ i, (ofItems key items).index? a = some i ∧ (ofItems key items).items[i]? = some a :=
  getElem?_positions (nodup_items key items) ((mem_items key).mpr mem)

/-- Every item stands at its position. -/
theorem getElem?_indexOf {a : α} (mem : a ∈ items) :
    (ofItems key items).items[(ofItems key items).indexOf a]? = some a := by
  obtain ⟨i, found, stands⟩ := index?_of_mem key mem
  rw [indexOf, found, Option.getD_some, stands]

/-- The position of an item is the only one at which it stands. -/
theorem indexOf_of_getElem? {a : α} {i : Nat} (stands : (ofItems key items).items[i]? = some a) :
    (ofItems key items).indexOf a = i := by
  have mem : a ∈ items := (mem_items key).mp (List.mem_of_getElem? stands)
  have inside := (List.getElem?_eq_some_iff.mp (getElem?_indexOf key mem)).1
  exact (List.getElem?_inj inside (nodup_items key items)).mp
    ((getElem?_indexOf key mem).trans stands.symm)

/-- The index of an item is one of the table. -/
theorem indexOf_lt {a : α} (mem : a ∈ items) :
    (ofItems key items).indexOf a < (ofItems key items).size :=
  (List.getElem?_eq_some_iff.mp (getElem?_indexOf key mem)).1

/-- Different items have different indices. -/
theorem indexOf_injective {a b : α} (ha : a ∈ items) (hb : b ∈ items)
    (same : (ofItems key items).indexOf a = (ofItems key items).indexOf b) : a = b := by
  have first := getElem?_indexOf key ha
  rw [same, getElem?_indexOf key hb] at first
  exact (Option.some.inj first).symm

/-- What stands earlier has no later key. -/
theorem keyLE_of_indexOf_lt {a b : α} (ha : a ∈ items) (hb : b ∈ items)
    (lt : (ofItems key items).indexOf a < (ofItems key items).indexOf b) :
    keyLE (key a) (key b) = true := by
  have pairwise := List.pairwise_iff_getElem.mp (ascending_items key items)
  have sa := List.getElem?_eq_some_iff.mp (getElem?_indexOf key ha)
  have sb := List.getElem?_eq_some_iff.mp (getElem?_indexOf key hb)
  have h := pairwise _ _ sa.1 sb.1 lt
  rwa [sa.2, sb.2] at h

/-- Positions follow the keys, where the key of an item is its own. -/
theorem follows (injective : ∀ a ∈ items, ∀ b ∈ items, key a = key b → a = b) {a b : α}
    (ha : a ∈ items) (hb : b ∈ items) : Follows (ofItems key items).indexOf key a b := by
  have equal : (ofItems key items).indexOf a = (ofItems key items).indexOf b ↔ key a = key b :=
    ⟨fun h => congrArg key (indexOf_injective key ha hb h), fun h => by rw [injective a ha b hb h]⟩
  refine ⟨equal, ⟨fun le => ?_, fun le => ?_⟩⟩
  · rcases Nat.lt_or_eq_of_le le with lt | eq
    · exact keyLE_of_indexOf_lt key ha hb lt
    · rw [equal.mp eq]
      exact keyLE_refl _
  · rcases Nat.lt_or_ge ((ofItems key items).indexOf b) ((ofItems key items).indexOf a) with lt | ge
    · exact Nat.le_of_eq (equal.mpr (keyLE_antisymm le (keyLE_of_indexOf_lt key hb ha lt)))
    · exact ge

/-- The same items under keys that compare alike make the same table. -/
theorem ofItems_eq {key' : α → Key} {items' : List α} (same : ∀ a, a ∈ items ↔ a ∈ items')
    (injective : ∀ a ∈ items, ∀ b ∈ items, key a = key b → a = b)
    (alike : ∀ a ∈ items, ∀ b ∈ items, keyLE (key a) (key b) = keyLE (key' a) (key' b)) :
    ofItems key items = ofItems key' items' := by
  have perm : (distinct items).Perm (distinct items') :=
    (List.perm_ext_iff_of_nodup (nodup_distinct _) (nodup_distinct _)).mpr fun a => by simp [same]
  have sorted : sortOn key (distinct items) = sortOn key' (distinct items') := by
    rw [sortOn_eq_of_perm perm fun a ha b hb => injective a (mem_distinct.mp ha) b
      (mem_distinct.mp hb)]
    apply sortOn_congr
    intro a ha b hb
    exact alike a ((same a).mpr (mem_distinct.mp ha)) b ((same b).mpr (mem_distinct.mp hb))
  rw [ofItems, ofItems, sorted]

end Table

end StubJar.Order
