import StubJar.Order.Key

/-!
# The order of keys, and sorting by them

`keyLE` is a total order, so `sortOn` gives the one ascending arrangement of
its items that keeps items of one key in the order they came in. Three laws
carry everything that is proved about sorted tables and sorted members:

- `sortOn` depends on nothing but how the keys of the items compare
  (`sortOn_congr`), so sorting by positions in a sorted table is sorting by
  what the table was sorted by;
- it commutes with a renaming that keeps the comparisons (`map_sortOn`);
- a list that ascends already stays as it is (`sortOn_of_ascending`).

`keysLE` compares lists of keys from the left. Where items stand at positions
that ascend with their keys, a list of positions compares as the list of the
keys does (`keyLE_positions`).
-/

namespace StubJar.Order

variable {α β : Type}

/-! ## The order of keys -/

theorem keyLE_refl (k : Key) : keyLE k k = true := by
  induction k with
  | nil => rfl
  | cons a k ih => simp [keyLE, ih]

/-- Of two keys, one is not behind the other. -/
theorem keyLE_total (k l : Key) : (keyLE k l || keyLE l k) = true := by
  induction k generalizing l with
  | nil => rfl
  | cons a k ih =>
    cases l with
    | nil => rfl
    | cons b l =>
      have tails := ih l
      simp only [keyLE, Bool.or_eq_true, Bool.and_eq_true, decide_eq_true_eq, beq_iff_eq] at tails ⊢
      rcases Nat.lt_trichotomy a b with ab | ab | ab
      · exact Or.inl (Or.inl ab)
      · exact tails.imp (fun kl => Or.inr ⟨ab, kl⟩) (fun lk => Or.inr ⟨ab.symm, lk⟩)
      · exact Or.inr (Or.inl ab)

/-- The order of keys is transitive. -/
theorem keyLE_trans (k l m : Key) (first : keyLE k l = true) (second : keyLE l m = true) :
    keyLE k m = true := by
  induction k generalizing l m with
  | nil => rfl
  | cons a k ih =>
    cases l with
    | nil => cases first
    | cons b l =>
      cases m with
      | nil => cases second
      | cons c m =>
        have tails := ih l m
        simp only [keyLE, Bool.or_eq_true, Bool.and_eq_true, decide_eq_true_eq, beq_iff_eq]
          at first second ⊢
        rcases first with ab | ⟨ab, kl⟩ <;> rcases second with bc | ⟨bc, lm⟩
        · omega
        · omega
        · omega
        · exact Or.inr ⟨ab.trans bc, tails kl lm⟩

/-- Keys of which neither is behind the other are the same. -/
theorem keyLE_antisymm {k l : Key} (first : keyLE k l = true) (second : keyLE l k = true) :
    k = l := by
  induction k generalizing l with
  | nil =>
    cases l with
    | nil => rfl
    | cons b l => cases second
  | cons a k ih =>
    cases l with
    | nil => cases first
    | cons b l =>
      simp only [keyLE, Bool.or_eq_true, Bool.and_eq_true, decide_eq_true_eq, beq_iff_eq]
        at first second
      rcases first with ab | ⟨ab, kl⟩
      · rcases second with ba | ⟨ba, _⟩ <;> omega
      · rcases second with ba | ⟨_, lk⟩
        · omega
        · rw [ab, ih kl lk]

/-- A key that comes no later than another one comes before it. -/
theorem lt_of_keyLE {k l : Key} (le : keyLE k l = true) (differ : k ≠ l) : k < l := by
  induction k generalizing l with
  | nil =>
    cases l with
    | nil => exact absurd rfl differ
    | cons b l => exact List.nil_lt_cons b l
  | cons a k ih =>
    cases l with
    | nil => cases le
    | cons b l =>
      simp only [keyLE, Bool.or_eq_true, Bool.and_eq_true, decide_eq_true_eq, beq_iff_eq] at le
      rw [List.cons_lt_cons_iff]
      rcases le with ab | ⟨rfl, kl⟩
      · exact Or.inl ab
      · exact Or.inr ⟨rfl, ih kl fun same => differ (congrArg (a :: ·) same)⟩

/-- Keys of one number compare as numbers. -/
theorem keyLE_singleton (a b : Nat) : keyLE [a] [b] = decide (a ≤ b) := by
  rw [Bool.eq_iff_iff]
  simp only [keyLE, Bool.and_true, Bool.or_eq_true, decide_eq_true_eq, beq_iff_eq]
  omega

/-- Whether a list of keys comes no later than another one, compared key by
key from the left. -/
def keysLE : (ks ls : List Key) → Bool
  | [], _ => true
  | _ :: _, [] => false
  | k :: ks, l :: ls => if k = l then keysLE ks ls else keyLE k l

/-- Of two lists of keys, one is not behind the other. -/
theorem keysLE_total (ks ls : List Key) : (keysLE ks ls || keysLE ls ks) = true := by
  induction ks generalizing ls with
  | nil => rfl
  | cons k ks ih =>
    cases ls with
    | nil => rfl
    | cons l ls =>
      by_cases same : k = l
      · subst same
        simp only [keysLE, if_true]
        exact ih ls
      · have differ : ¬ l = k := fun h => same h.symm
        simp only [keysLE, if_neg same, if_neg differ]
        exact keyLE_total k l

/-- The order of lists of keys is transitive. -/
theorem keysLE_trans (ks ls ms : List Key) (first : keysLE ks ls = true)
    (second : keysLE ls ms = true) : keysLE ks ms = true := by
  induction ks generalizing ls ms with
  | nil => rfl
  | cons k ks ih =>
    cases ls with
    | nil => cases first
    | cons l ls =>
      cases ms with
      | nil => cases second
      | cons m ms =>
        rw [keysLE] at first second ⊢
        by_cases kl : k = l
        · subst kl
          rw [if_pos rfl] at first
          by_cases km : k = m
          · rw [if_pos km] at second ⊢
            exact ih ls ms first second
          · rwa [if_neg km] at second ⊢
        · rw [if_neg kl] at first
          by_cases lm : l = m
          · subst lm
            rwa [if_neg kl]
          · rw [if_neg lm] at second
            have differ : ¬ k = m := fun km => by
              subst km
              exact kl (keyLE_antisymm first second)
            rw [if_neg differ]
            exact keyLE_trans k l m first second

/-- Positions that ascend with keys: equal where the keys are equal, and
ordered as they are. -/
structure Follows (position : α → Nat) (key : α → Key) (a b : α) : Prop where
  eq_iff : position a = position b ↔ key a = key b
  le_iff : position a ≤ position b ↔ keyLE (key a) (key b) = true

/-- Positions that follow keys compare as the keys do. -/
theorem Follows.keyLE {position : α → Nat} {key : α → Key} {a b : α}
    (h : Follows position key a b) :
    keyLE [position a] [position b] = keyLE (key a) (key b) := by
  rw [keyLE_singleton, Bool.eq_iff_iff, decide_eq_true_eq, h.le_iff]

/-- A position in front, which follows a key, decides as the key does; behind
equal ones the rest decides. -/
theorem Follows.keyLE_cons {position : α → Nat} {key : α → Key} {a b : α}
    (h : Follows position key a b) {k l : Key} {ks ls : List Key}
    (rest : StubJar.Order.keyLE k l = keysLE ks ls) :
    StubJar.Order.keyLE (position a :: k) (position b :: l) =
      keysLE (key a :: ks) (key b :: ls) := by
  simp only [StubJar.Order.keyLE, keysLE, rest]
  by_cases same : key a = key b
  · have equal := h.eq_iff.mpr same
    simp [same, equal]
  · have differ : position a ≠ position b := fun equal => same (h.eq_iff.mp equal)
    rw [if_neg same, Bool.eq_iff_iff, ← h.le_iff]
    simp only [Bool.or_eq_true, Bool.and_eq_true, decide_eq_true_eq, beq_iff_eq]
    omega

/-- Lists of positions compare as the lists of keys that the positions
follow. -/
theorem keyLE_positions {position : α → Nat} {key : α → Key} {as bs : List α}
    (follows : ∀ a ∈ as, ∀ b ∈ bs, Follows position key a b) :
    keyLE (as.map position) (bs.map position) = keysLE (as.map key) (bs.map key) := by
  induction as generalizing bs with
  | nil => rfl
  | cons a as ih =>
    cases bs with
    | nil => rfl
    | cons b bs =>
      exact (follows a List.mem_cons_self b List.mem_cons_self).keyLE_cons
        (ih fun x hx y hy => follows x (List.mem_cons_of_mem _ hx) y (List.mem_cons_of_mem _ hy))

/-! ## Sorting -/

/-- Sorting by keys is merge sort under the order of the keys: that each key is
computed once makes no difference. -/
theorem sortOn_eq_mergeSort (key : α → Key) (items : List α) :
    sortOn key items = items.mergeSort fun a b => keyLE (key a) (key b) := by
  have paired := List.map_mergeSort (r := fun a b => keyLE (key a) (key b))
    (s := fun x y : Key × α => keyLE x.1 y.1) (f := fun a => (key a, a)) (l := items)
    (fun _ _ _ _ => rfl)
  rw [sortOn, ← paired, List.map_map]
  exact List.map_id _

/-- Sorting rearranges. -/
theorem sortOn_perm (key : α → Key) (items : List α) : (sortOn key items).Perm items := by
  rw [sortOn_eq_mergeSort]
  exact List.mergeSort_perm items _

@[simp] theorem mem_sortOn {key : α → Key} {items : List α} {a : α} :
    a ∈ sortOn key items ↔ a ∈ items := (sortOn_perm key items).mem_iff

@[simp] theorem length_sortOn (key : α → Key) (items : List α) :
    (sortOn key items).length = items.length := (sortOn_perm key items).length_eq

@[simp] theorem sortOn_nil (key : α → Key) : sortOn key ([] : List α) = [] := by
  simp [sortOn_eq_mergeSort]

/-- Items in ascending order of their keys. -/
def Ascending (key : α → Key) (items : List α) : Prop :=
  items.Pairwise fun a b => keyLE (key a) (key b) = true

/-- What is sorted ascends by its keys. -/
theorem sortOn_ascending (key : α → Key) (items : List α) : Ascending key (sortOn key items) := by
  rw [sortOn_eq_mergeSort]
  exact List.pairwise_mergeSort (fun a b c => keyLE_trans (key a) (key b) (key c))
    (fun a b => keyLE_total (key a) (key b)) items

/-- Sorting leaves alone what ascends already. -/
theorem sortOn_of_ascending {key : α → Key} {items : List α} (h : Ascending key items) :
    sortOn key items = items := by
  rw [sortOn_eq_mergeSort]
  exact List.mergeSort_of_pairwise h

/-- What is sorted stays as it is when it is sorted again. -/
theorem sortOn_sortOn (key : α → Key) (items : List α) :
    sortOn key (sortOn key items) = sortOn key items :=
  sortOn_of_ascending (sortOn_ascending key items)

/-- Sorting commutes with a renaming under which the items compare as before. -/
theorem map_sortOn (key : α → Key) {key' : β → Key} {f : α → β} {items : List α}
    (same : ∀ a ∈ items, ∀ b ∈ items, keyLE (key a) (key b) = keyLE (key' (f a)) (key' (f b))) :
    (sortOn key items).map f = sortOn key' (items.map f) := by
  rw [sortOn_eq_mergeSort, sortOn_eq_mergeSort]
  exact List.map_mergeSort same

/-- Sorting depends on nothing but how the keys compare. -/
theorem sortOn_congr {key key' : α → Key} {items : List α}
    (same : ∀ a ∈ items, ∀ b ∈ items, keyLE (key a) (key b) = keyLE (key' a) (key' b)) :
    sortOn key items = sortOn key' items := by
  have renamed := map_sortOn key (f := id) same
  rwa [List.map_id, List.map_id] at renamed

/-- The items in ascending order of several keys each. -/
def sortOnKeys (keys : α → List Key) (items : List α) : List α :=
  items.mergeSort fun a b => keysLE (keys a) (keys b)

/-- Sorting by positions that compare as several keys do. -/
theorem sortOn_eq_sortOnKeys (key : α → Key) {keys : α → List Key} {items : List α}
    (same : ∀ a ∈ items, ∀ b ∈ items, keyLE (key a) (key b) = keysLE (keys a) (keys b)) :
    sortOn key items = sortOnKeys keys items := by
  have renamed := List.map_mergeSort (r := fun a b => keyLE (key a) (key b))
    (s := fun a b => keysLE (keys a) (keys b)) (f := id) same
  rwa [List.map_id, List.map_id, ← sortOn_eq_mergeSort] at renamed

/-- Sorting by several keys rearranges. -/
theorem sortOnKeys_perm (keys : α → List Key) (items : List α) :
    (sortOnKeys keys items).Perm items := List.mergeSort_perm items _

/-- What ascends by its keys already stays as it is. -/
theorem sortOnKeys_of_ascending {keys : α → List Key} {items : List α}
    (h : items.Pairwise fun a b => keysLE (keys a) (keys b) = true) :
    sortOnKeys keys items = items := List.mergeSort_of_pairwise h

/-- What is sorted by several keys ascends by them. -/
theorem sortOnKeys_ascending (keys : α → List Key) (items : List α) :
    (sortOnKeys keys items).Pairwise fun a b => keysLE (keys a) (keys b) = true :=
  List.pairwise_mergeSort (fun a b c => keysLE_trans (keys a) (keys b) (keys c))
    (fun a b => keysLE_total (keys a) (keys b)) items

/-- Two arrangements of the same items, with a key for each of them, are sorted
alike. -/
theorem sortOn_eq_of_perm {key : α → Key} {items items' : List α} (perm : items.Perm items')
    (injective : ∀ a ∈ items, ∀ b ∈ items, key a = key b → a = b) :
    sortOn key items = sortOn key items' := by
  have antisymm : ∀ a b, a ∈ sortOn key items → b ∈ sortOn key items' →
      keyLE (key a) (key b) = true → keyLE (key b) (key a) = true → a = b := by
    intro a b ha hb ab ba
    exact injective a (mem_sortOn.mp ha) b (perm.mem_iff.mpr (mem_sortOn.mp hb))
      (keyLE_antisymm ab ba)
  exact List.Perm.eq_of_pairwise antisymm (sortOn_ascending key items)
    (sortOn_ascending key items')
    ((sortOn_perm key items).trans (perm.trans (sortOn_perm key items').symm))

end StubJar.Order
