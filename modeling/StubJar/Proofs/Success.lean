import Mathlib.Algebra.Ring.Int.Defs
import Mathlib.Algebra.Ring.Nat
import Mathlib.Data.List.Forall2

/-!
# Steps that succeed

A computation made of several steps succeeds exactly when each of them does.
-/

namespace StubJar

variable {α β ε σ : Type}

/-- Two steps succeed if the first does and the second does with its result. -/
theorem bind_eq_ok {x : Except ε α} {f : α → Except ε β} {b : β} :
    x >>= f = .ok b ↔ ∃ a, x = .ok a ∧ f a = .ok b := by
  constructor
  · intro h
    cases x with
    | error e => cases h
    | ok a => exact ⟨a, rfl, h⟩
  · rintro ⟨a, rfl, h⟩
    exact h

/-- They fail with the fault of the first, or of the second behind it. -/
theorem bind_eq_error {x : Except ε α} {f : α → Except ε β} {e : ε} :
    x >>= f = .error e ↔ x = .error e ∨ ∃ a, x = .ok a ∧ f a = .error e := by
  cases x with
  | error e' =>
    constructor
    · intro h
      cases h
      exact .inl rfl
    · rintro (h | ⟨_, h, _⟩)
      · cases h
        rfl
      · cases h
  | ok a =>
    constructor
    · exact fun h => .inr ⟨a, rfl, h⟩
    · rintro (h | ⟨_, h, found⟩)
      · cases h
      · cases h
        exact found

/-- A result is changed only where there is one. -/
theorem map_eq_ok {x : Except ε α} {f : α → β} {b : β} :
    f <$> x = .ok b ↔ ∃ a, x = .ok a ∧ f a = b := by
  cases x with
  | error e =>
    constructor
    · intro h
      cases h
    · rintro ⟨a, h, _⟩
      cases h
  | ok a =>
    constructor
    · intro h
      exact ⟨a, rfl, Except.ok.inj h⟩
    · rintro ⟨a', h, rfl⟩
      cases h
      rfl

/-- A fault that is wrapped leaves results alone. -/
theorem mapError_eq_ok {δ : Type} {x : Except ε α} {f : ε → δ} {a : α} :
    x.mapError f = .ok a ↔ x = .ok a := by
  cases x with
  | error e => exact ⟨nofun, nofun⟩
  | ok b =>
    constructor
    · intro h
      cases h
      rfl
    · intro h
      cases h
      rfl

/-- A fold over items succeeds if its first step and the fold over the others do. -/
theorem foldlM_cons_eq_ok {step : σ → α → Except ε σ} {s s' : σ} {a : α} {items : List α} :
    (a :: items).foldlM step s = .ok s' ↔
      ∃ s₁, step s a = .ok s₁ ∧ items.foldlM step s₁ = .ok s' := by
  rw [List.foldlM_cons]
  exact bind_eq_ok

/-- All items pass a check if each of them does. -/
theorem forM_eq_ok {check : α → Except ε Unit} {items : List α} :
    items.forM check = .ok () ↔ ∀ a ∈ items, check a = .ok () := by
  induction items with
  | nil => exact ⟨fun _ _ h => (List.not_mem_nil h).elim, fun _ => rfl⟩
  | cons a items ih =>
    have step : (a :: items).forM check = check a >>= fun _ => items.forM check := rfl
    rw [step, bind_eq_ok, List.forall_mem_cons, ← ih]
    exact ⟨fun ⟨_, first, rest⟩ => ⟨first, rest⟩, fun ⟨first, rest⟩ => ⟨(), first, rest⟩⟩

/-- If they do not, one of them fails with the fault. -/
theorem forM_eq_error {check : α → Except ε Unit} {items : List α} {e : ε}
    (h : items.forM check = .error e) : ∃ a ∈ items, check a = .error e := by
  induction items with
  | nil => cases h
  | cons a items ih =>
    have step : (a :: items).forM check = check a >>= fun _ => items.forM check := rfl
    rw [step, bind_eq_error] at h
    rcases h with first | ⟨_, _, rest⟩
    · exact ⟨a, List.mem_cons_self, first⟩
    · obtain ⟨b, hb, later⟩ := ih rest
      exact ⟨b, List.mem_cons_of_mem _ hb, later⟩

/-- A fold that fails does so at one of its items, behind others that succeed. -/
theorem foldlM_eq_error {step : σ → α → Except ε σ} {s : σ} {items : List α} {e : ε}
    (h : items.foldlM step s = .error e) : ∃ earlier a later s', items = earlier ++ a :: later
      ∧ earlier.foldlM step s = .ok s' ∧ step s' a = .error e := by
  induction items generalizing s with
  | nil => cases h
  | cons b items ih =>
    rw [List.foldlM_cons] at h
    rcases bind_eq_error.mp h with first | ⟨s₁, first, rest⟩
    · exact ⟨[], b, items, s, rfl, rfl, first⟩
    · obtain ⟨earlier, a, later, s', rfl, run, fails⟩ := ih rest
      exact ⟨b :: earlier, a, later, s', rfl, foldlM_cons_eq_ok.mpr ⟨s₁, first, run⟩, fails⟩

/-- All items have results if each of them has its own. -/
theorem mapM_eq_ok {f : α → Except ε β} {items : List α} {results : List β} :
    items.mapM f = .ok results ↔ List.Forall₂ (fun a b => f a = .ok b) items results := by
  induction items generalizing results with
  | nil =>
    rw [List.mapM_nil, List.forall₂_nil_left_iff]
    exact ⟨fun h => (Except.ok.inj h).symm, fun h => h ▸ rfl⟩
  | cons a items ih =>
    rw [List.mapM_cons, bind_eq_ok, List.forall₂_cons_left_iff]
    constructor
    · rintro ⟨b, first, rest⟩
      obtain ⟨bs, rest, same⟩ := bind_eq_ok.mp rest
      exact ⟨b, bs, first, ih.mp rest, (Except.ok.inj same).symm⟩
    · rintro ⟨b, bs, first, rest, rfl⟩
      exact ⟨b, first, bind_eq_ok.mpr ⟨bs, ih.mpr rest, rfl⟩⟩

/-- The fault of a computation that fails. -/
def fault? : Except ε α → Option ε
  | .ok _ => none
  | .error e => some e

/-- The fault of a computation is the one that it fails with. -/
theorem fault?_eq_some {x : Except ε α} {e : ε} : fault? x = some e ↔ x = .error e := by
  cases x with
  | ok a => exact ⟨nofun, nofun⟩
  | error e' =>
    constructor
    · intro h
      rw [Option.some.inj h]
    · intro h
      cases h
      rfl

/-- There is no fault where there is a result. -/
theorem fault?_eq_none {x : Except ε α} : fault? x = none ↔ ∃ a, x = .ok a := by
  cases x with
  | ok a => exact ⟨fun _ => ⟨a, rfl⟩, fun _ => rfl⟩
  | error e =>
    constructor
    · intro h
      cases h
    · rintro ⟨a, h⟩
      cases h

/-- What is done with a result that cannot fail adds no fault. -/
theorem fault?_bind_ok (x : Except ε α) (f : α → β) : fault? (x >>= fun a => .ok (f a)) = fault? x := by
  cases x with
  | ok a => rfl
  | error e => rfl

/-- A traversal fails like the first of its steps that does. -/
theorem fault?_mapM (f : α → Except ε β) (items : List α) :
    fault? (items.mapM f) = items.findSome? fun a => fault? (f a) := by
  induction items with
  | nil => rfl
  | cons a items ih =>
    rw [List.mapM_cons, List.findSome?_cons]
    cases f a with
    | error e => rfl
    | ok b => exact (fault?_bind_ok _ _).trans ih

/-- What is found first in pieces is found first in the first piece that has any. -/
theorem findSome?_flatMap (f : α → List β) (g : β → Option σ) (items : List α) :
    (items.flatMap f).findSome? g = items.findSome? fun a => (f a).findSome? g := by
  induction items with
  | nil => rfl
  | cons a items ih =>
    rw [List.flatMap_cons, List.findSome?_append, ih, List.findSome?_cons]
    cases (f a).findSome? g with
    | none => rfl
    | some c => rfl

/-- Traversals are the same if their steps are. -/
theorem mapM_eq_of_forall₂ {γ : Type} {f : α → Except ε γ} {g : β → Except ε γ} {as : List α}
    {bs : List β} (each : List.Forall₂ (fun a b => f a = g b) as bs) : as.mapM f = bs.mapM g := by
  induction each with
  | nil => rfl
  | cons head _ ih => rw [List.mapM_cons, List.mapM_cons, head, ih]

/-- Functions that agree on related items agree on related lists. -/
theorem map_eq_of_forall₂ {γ : Type} {R : α → β → Prop} {as : List α} {bs : List β} {f : α → γ}
    {g : β → γ} (related : List.Forall₂ R as bs) (each : ∀ a b, R a b → f a = g b) :
    as.map f = bs.map g := by
  induction related with
  | nil => rfl
  | cons head _ ih => rw [List.map_cons, List.map_cons, each _ _ head, ih]

/-- And lists on which two functions agree are related item by item. -/
theorem forall₂_of_map_eq {γ : Type} {as : List α} {bs : List β} {f : α → γ} {g : β → γ}
    (same : as.map f = bs.map g) : List.Forall₂ (fun a b => f a = g b) as bs := by
  rwa [← List.forall₂_eq_eq_eq, List.forall₂_map_left_iff, List.forall₂_map_right_iff] at same

/-- What a list is related to comes from one of its items. -/
theorem exists_of_mem_right {R : α → β → Prop} {as : List α} {bs : List β}
    (related : List.Forall₂ R as bs) {b : β} (mem : b ∈ bs) : ∃ a ∈ as, R a b := by
  induction related with
  | nil => cases mem
  | cons head _ ih =>
    rcases List.mem_cons.mp mem with rfl | later
    · exact ⟨_, List.mem_cons_self, head⟩
    · obtain ⟨a, ha, holds⟩ := ih later
      exact ⟨a, List.mem_cons_of_mem _ ha, holds⟩

/-- So does what stands at a position. -/
theorem exists_of_getElem?_right {R : α → β → Prop} {as : List α} {bs : List β}
    (related : List.Forall₂ R as bs) {i : Nat} {b : β} (stands : bs[i]? = some b) :
    ∃ a, as[i]? = some a ∧ R a b := by
  induction related generalizing i with
  | nil => cases stands
  | cons head _ ih =>
    cases i with
    | zero =>
      obtain rfl := Option.some.inj stands
      exact ⟨_, rfl, head⟩
    | succ i => exact ih stands

/-- What exists for each item exists for the list. -/
theorem exists_forall₂ {R : α → β → Prop} {as : List α} (each : ∀ a ∈ as, ∃ b, R a b) :
    ∃ bs, List.Forall₂ R as bs := by
  induction as with
  | nil => exact ⟨[], .nil⟩
  | cons a as ih =>
    obtain ⟨b, head⟩ := each a List.mem_cons_self
    obtain ⟨bs, rest⟩ := ih fun c hc => each c (List.mem_cons_of_mem _ hc)
    exact ⟨b :: bs, .cons head rest⟩

/-- What follows for the items of the lists follows for the lists. -/
theorem forall₂_imp_of_mem {R S : α → β → Prop} {as : List α} {bs : List β}
    (related : List.Forall₂ R as bs) (h : ∀ a ∈ as, ∀ b ∈ bs, R a b → S a b) :
    List.Forall₂ S as bs := by
  induction related with
  | nil => exact .nil
  | cons head _ ih =>
    refine .cons (h _ List.mem_cons_self _ List.mem_cons_self head) (ih fun a ha b hb => ?_)
    exact h a (List.mem_cons_of_mem _ ha) b (List.mem_cons_of_mem _ hb)

/-- What is related to each pair of items makes up a list. -/
theorem exists_between {γ : Type} {R : α → γ → Prop} {S : β → γ → Prop} {as : List α} {bs : List β}
    (related : List.Forall₂ (fun a b => ∃ c, R a c ∧ S b c) as bs) :
    ∃ cs, List.Forall₂ R as cs ∧ List.Forall₂ S bs cs := by
  induction related with
  | nil => exact ⟨[], .nil, .nil⟩
  | cons head _ ih =>
    obtain ⟨c, one, two⟩ := head
    obtain ⟨cs, first, second⟩ := ih
    exact ⟨c :: cs, .cons one first, .cons two second⟩

/-- Two relations one after the other. -/
theorem forall₂_comp {γ : Type} {R : α → β → Prop} {S : β → γ → Prop} {as : List α} {bs : List β}
    {cs : List γ} (first : List.Forall₂ R as bs) (second : List.Forall₂ S bs cs) :
    List.Forall₂ (fun a c => ∃ b ∈ bs, R a b ∧ S b c) as cs := by
  induction first generalizing cs with
  | nil =>
    cases second
    exact .nil
  | cons head _ ih =>
    cases second with
    | cons next rest =>
      refine .cons ⟨_, List.mem_cons_self, head, next⟩ ((ih rest).imp fun a c => ?_)
      rintro ⟨b, mem, holds⟩
      exact ⟨b, List.mem_cons_of_mem _ mem, holds⟩

/-- Pieces that are each as long as asked for or longer make up a list that is. -/
theorem flatten_eq_or_length_lt {f : α → List β} {blocks : List (List β)} {as : List α}
    (each : List.Forall₂ (fun block a => block = f a ∨ (f a).length < block.length) blocks as) :
    blocks.flatten = as.flatMap f ∨ (as.flatMap f).length < blocks.flatten.length := by
  induction each with
  | nil => exact .inl rfl
  | cons head _ ih =>
    rw [List.flatten_cons, List.flatMap_cons, List.length_append, List.length_append]
    rcases head with rfl | longer <;> rcases ih with same | longer'
    · exact .inl (by rw [same])
    · omega
    · rw [same]
      omega
    · omega

end StubJar
