import StubJar.Container.Layout
import StubJar.Proofs.Container.Reads

/-!
# Items stand where their offsets say

`FoundAt bytes item? offset` says that an offset is good for an item that may be
missing: a missing one has offset zero, one that is there stands at its offset,
which is not zero. Placing items one after another gives every
one of them a good offset in any bytes of which the run is a piece
(`foundAt_ofOptional`, `foundAt_ofItems`): what is placed later only adds bytes
behind, and the bytes that fill a gap come before the item that needs them.
-/

namespace StubJar.Container

open StubJar.Bytes

variable {bytes : List UInt8} {α : Type}

/-- Where an item is found, if there is one. -/
def FoundAt (bytes : List UInt8) : Option (List UInt8) → Nat → Prop
  | none, offset => offset = 0
  | some item, offset => 0 < offset ∧ Stands bytes offset item

/-- Where the item of a position is found. -/
theorem foundAt_getD {items : List (Option (List UInt8))} {offsets : Array Nat}
    (found : List.Forall₂ (FoundAt bytes) items offsets.toList) {n : Nat}
    {item? : Option (List UInt8)} (placed : items[n]? = some item?) :
    FoundAt bytes item? (offsets.getD n 0) := by
  obtain ⟨inside, same⟩ := List.getElem?_eq_some_iff.mp placed
  have noted : n < offsets.toList.length := found.length_eq ▸ inside
  have related := (List.forall₂_iff_get.mp found).2 n inside noted
  rw [List.get_eq_getElem, List.get_eq_getElem, same] at related
  rw [Array.getD_eq_getD_getElem?, ← Array.getElem?_toList, List.getElem?_eq_getElem noted,
    Option.getD_some]
  exact related

namespace Run

/-- An item is added behind a gap that aligns it. -/
theorem add_bytes (r : Run) (item : List UInt8) :
    (r.add item).bytes.toList = r.bytes.toList ++ (List.replicate r.gap 0 ++ item) := by
  simp [add]

/-- Placing further items leaves what is placed where it is, and gives each of
them a good offset. -/
theorem foldl_addIfAny (items : List (Option (List UInt8))) (s : Run × Array Nat) :
    ∃ more offsets, (items.foldl addIfAny s).1.kind = s.1.kind
      ∧ (items.foldl addIfAny s).1.start = s.1.start
      ∧ (items.foldl addIfAny s).1.bytes.toList = s.1.bytes.toList ++ more
      ∧ (items.foldl addIfAny s).2.toList = s.2.toList ++ offsets
      ∧ offsets.length = items.length
      ∧ ∀ bytes, 0 < s.1.start → Stands bytes s.1.start (s.1.bytes.toList ++ more) →
        List.Forall₂ (FoundAt bytes) items offsets := by
  induction items generalizing s with
  | nil => exact ⟨[], [], rfl, rfl, by simp, by simp, rfl, fun _ _ _ => .nil⟩
  | cons item? items ih =>
    obtain ⟨more, offsets, kind, start, placed, noted, count, found⟩ := ih (addIfAny s item?)
    cases item? with
    | none =>
      refine ⟨more, 0 :: offsets, kind, start, placed, ?_, congrArg (· + 1) count,
        fun bytes positive stands => .cons rfl (found bytes positive stands)⟩
      rw [List.foldl_cons, noted]
      simp [addIfAny]
    | some item =>
      have bytes_add : (addIfAny s (some item)).1.bytes.toList
          = s.1.bytes.toList ++ (List.replicate s.1.gap 0 ++ item) := add_bytes s.1 item
      refine ⟨List.replicate s.1.gap 0 ++ item ++ more, s.1.next :: offsets, kind, start, ?_, ?_,
        congrArg (· + 1) count, ?_⟩
      · rw [List.foldl_cons, placed, bytes_add]
        simp
      · rw [List.foldl_cons, noted]
        simp [addIfAny]
      · intro bytes positive stands
        refine .cons ⟨by simp only [next, stop]; omega, ?_⟩ (found bytes positive ?_)
        · have item_stands := stands.right.left.right
          rwa [List.length_replicate, Array.length_toList] at item_stands
        · rw [bytes_add, List.append_assoc]
          exact stands

/-- In a run of items that may be missing each has a good offset. -/
theorem foundAt_ofOptional {kind : ItemKind} {start : Nat} {items : List (Option (List UInt8))}
    (positive : 0 < start)
    (stands : Stands bytes start (ofOptional kind start items).1.bytes.toList) :
    List.Forall₂ (FoundAt bytes) items (ofOptional kind start items).2.toList := by
  obtain ⟨more, offsets, _, _, placed, noted, _, found⟩ := foldl_addIfAny items (empty kind start, #[])
  rw [ofOptional, placed] at stands
  rw [ofOptional, noted]
  exact found bytes positive stands

/-- A run starts where it is told to. -/
theorem start_ofOptional (kind : ItemKind) (start : Nat) (items : List (Option (List UInt8))) :
    (ofOptional kind start items).1.start = start := by
  obtain ⟨_, _, _, same, _⟩ := foldl_addIfAny items (empty kind start, #[])
  exact same

/-- It is of the kind that it is told. -/
theorem kind_ofOptional (kind : ItemKind) (start : Nat) (items : List (Option (List UInt8))) :
    (ofOptional kind start items).1.kind = kind := by
  obtain ⟨_, _, same, _⟩ := foldl_addIfAny items (empty kind start, #[])
  exact same

/-- It has an offset for each item, even for those that are missing. -/
theorem size_ofOptional (kind : ItemKind) (start : Nat) (items : List (Option (List UInt8))) :
    (ofOptional kind start items).2.size = items.length := by
  obtain ⟨_, offsets, _, _, _, noted, count, _⟩ := foldl_addIfAny items (empty kind start, #[])
  rw [← Array.length_toList, ofOptional, noted, ← count]
  rfl

/-- Items none of which is missing. -/
theorem ofOptional_some (kind : ItemKind) (start : Nat) (items : List (List UInt8)) :
    ofOptional kind start (items.map some)
      = (ofItems kind start items, (ofItems kind start items).offsets) := by
  have general : ∀ r : Run, (items.map some).foldl addIfAny (r, r.offsets)
      = (items.foldl add r, (items.foldl add r).offsets) := by
    induction items with
    | nil => exact fun _ => rfl
    | cons item items ih => exact fun r => ih (r.add item)
  exact general (empty kind start)

theorem start_ofItems (kind : ItemKind) (start : Nat) (items : List (List UInt8)) :
    (ofItems kind start items).start = start := by
  have same := start_ofOptional kind start (items.map some)
  rwa [ofOptional_some] at same

theorem kind_ofItems (kind : ItemKind) (start : Nat) (items : List (List UInt8)) :
    (ofItems kind start items).kind = kind := by
  have same := kind_ofOptional kind start (items.map some)
  rwa [ofOptional_some] at same

theorem size_ofItems (kind : ItemKind) (start : Nat) (items : List (List UInt8)) :
    (ofItems kind start items).offsets.size = items.length := by
  have same := size_ofOptional kind start (items.map some)
  rwa [ofOptional_some, List.length_map] at same

/-- In a run of items each has a good offset. -/
theorem foundAt_ofItems {kind : ItemKind} {start : Nat} {items : List (List UInt8)}
    (positive : 0 < start) (stands : Stands bytes start (ofItems kind start items).bytes.toList) :
    List.Forall₂ (fun item offset => 0 < offset ∧ Stands bytes offset item) items
      (ofItems kind start items).offsets.toList := by
  have found : List.Forall₂ (FoundAt bytes) (items.map some)
      (ofOptional kind start (items.map some)).2.toList :=
    foundAt_ofOptional positive (by rw [ofOptional_some]; exact stands)
  rwa [ofOptional_some, List.forall₂_map_left_iff] at found

end Run

end StubJar.Container
