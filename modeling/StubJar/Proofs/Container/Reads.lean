import Mathlib.Algebra.Ring.Int.Defs
import Mathlib.Algebra.Ring.Nat
import Mathlib.Data.List.Forall2
import StubJar.Container.Decoder
import StubJar.Container.ValueForm
import StubJar.Proofs.Bytes.Leb128
import StubJar.Proofs.Bytes.Numbers

/-!
# Reading what was written

`Reads d bytes a` says that the decoder `d` reads `a` off the front of any
input that begins with `bytes`, and leaves the rest. Stated with the rest left
open it composes: what two decoders read one after another is read off the two
pieces joined (`Reads.bind`), and a counted list is read off its joined items
(`Reads.times`, `Reads.unfold`).

`Stands bytes offset item` says that `item` is the piece of `bytes` that starts
at `offset`. A decoder that reads a piece reads it where it stands
(`Stands.decodeAt`).
-/

namespace StubJar.Container

open StubJar.Bytes

variable {α β σ : Type}

/-- The decoder reads the value off the front of all input that begins with the
bytes. -/
def Reads (d : Decoder α) (bytes : List UInt8) (a : α) : Prop :=
  ∀ rest, d (bytes ++ rest) = .ok (a, rest)

namespace Reads

/-- A result is read without bytes. -/
theorem pure (a : α) : Reads (Pure.pure a) [] a := fun _ => rfl

/-- Two steps read the bytes of the first and then those of the second. -/
theorem bind {d : Decoder α} {f : α → Decoder β} {front back : List UInt8} {a : α} {b : β}
    (first : Reads d front a) (second : Reads (f a) back b) :
    Reads (d >>= f) (front ++ back) b := by
  intro rest
  change (d (front ++ back ++ rest) >>= fun found => f found.1 found.2) = _
  rw [List.append_assoc, first]
  exact second rest

/-- What is known without reading takes no bytes. -/
theorem lift {x : Except DecodeFault α} {a : α} (known : x = .ok a) :
    Reads (liftM x : Decoder α) [] a := by
  subst known
  exact fun _ => rfl

/-- What is known is passed on. -/
theorem lift_bind {x : Except DecodeFault α} {f : α → Decoder β} {bytes : List UInt8} {a : α}
    {b : β} (known : x = .ok a) (next : Reads (f a) bytes b) : Reads (liftM x >>= f) bytes b :=
  (lift known).bind next

/-- What is looked up under a value that is read takes no more bytes. -/
theorem bind_lift {d : Decoder α} {bytes : List UInt8} {a : α} {b : β}
    {find : α → Except DecodeFault β} (read : Reads d bytes a) (found : find a = .ok b) :
    Reads (d >>= fun a => liftM (find a)) bytes b := by
  have both := read.bind (f := fun a => liftM (find a)) (lift found)
  rwa [List.append_nil] at both

/-- What is made of a result is read from its bytes. -/
theorem map {d : Decoder α} {bytes : List UInt8} {a : α} (f : α → β) (h : Reads d bytes a) :
    Reads (do return f (← d)) bytes (f a) := by
  have read := h.bind (f := fun a => Pure.pure (f a)) (Reads.pure (f a))
  rwa [List.append_nil] at read

theorem map_fun {d : Decoder α} {bytes : List UInt8} {a : α} (f : α → β) (h : Reads d bytes a) :
    Reads (f <$> d) bytes (f a) := by
  intro rest
  change ((fun found : α × List UInt8 => (f found.1, found.2)) <$> d (bytes ++ rest)) = _
  rw [h]
  rfl

/-- Bytes are split off in front of any others. -/
theorem split? (bytes rest : List UInt8) :
    Container.split? bytes.length (bytes ++ rest) = some (bytes, rest) := by
  induction bytes with
  | nil => rfl
  | cons b bytes ih =>
    rw [List.length_cons, List.cons_append, Container.split?, ih]
    rfl

/-- They are read as they are. -/
theorem bytes (bytes : List UInt8) : Reads (Decoder.bytes bytes.length) bytes bytes := by
  intro rest
  rw [Decoder.bytes, split?]

/-- A number that fits is read from its bytes. -/
theorem number {k n : Nat} (fits : n < 256 ^ k) : Reads (Decoder.number k) (le k n) n := by
  have read := (bytes (le k n)).map ofLe
  rwa [length_le, ofLe_le fits] at read

/-- A number that does not fit leaves what is left of it. -/
theorem number_mod (k n : Nat) : Reads (Decoder.number k) (le k n) (n % 256 ^ k) := by
  have read := (bytes (le k n)).map ofLe
  rwa [length_le, ofLe_le_mod] at read

theorem uleb {n : Nat} (fits : n < 2 ^ 32) : Reads Decoder.uleb (Container.uleb n) n := by
  intro rest
  rw [Decoder.uleb, Container.uleb, Leb128.decode_encode]
  have : (UInt32.ofNat n).toNat = n := by
    simp only [UInt32.toNat_ofNat']
    omega
  rw [this]

/-! ## Several things one after another -/

/-- The steps of reading several things with a state: the pieces they are read
off, what is read, and the states before and behind. -/
inductive Steps (step : σ → Decoder (α × σ)) : σ → List (List UInt8) → List α → σ → Prop
  | nil (s : σ) : Steps step s [] [] s
  | cons {s s' s'' : σ} {piece : List UInt8} {pieces : List (List UInt8)} {a : α} {as : List α} :
      Reads (step s) piece (a, s') → Steps step s' pieces as s'' →
      Steps step s (piece :: pieces) (a :: as) s''

/-- Steps are read one behind another, behind what was read before. -/
theorem unfoldFrom {step : σ → Decoder (α × σ)} {s s' : σ} {pieces : List (List UInt8)}
    {as : List α} (steps : Steps step s pieces as s') (read : List α) (rest : List UInt8) :
    Decoder.unfoldFrom step as.length s read (pieces.flatten ++ rest) =
      .ok ((read.reverse ++ as, s'), rest) := by
  induction steps generalizing read with
  | nil => simp [Decoder.unfoldFrom]
  | cons head _ ih =>
    rw [List.length_cons, Decoder.unfoldFrom, List.flatten_cons, List.append_assoc, head]
    simp [ih]

/-- All steps are read from their pieces. -/
theorem unfold {step : σ → Decoder (α × σ)} {s s' : σ} {pieces : List (List UInt8)} {as : List α}
    (steps : Steps step s pieces as s') :
    Reads (Decoder.unfold step as.length s) pieces.flatten (as, s') := by
  intro rest
  exact unfoldFrom steps [] rest

/-- Things of one kind are read off their pieces. -/
theorem times {d : Decoder α} {pieces : List (List UInt8)} {as : List α}
    (each : List.Forall₂ (Reads d) pieces as) :
    Reads (Decoder.times as.length d) pieces.flatten as := by
  have steps : Steps (fun _ => do return (← d, ())) () pieces as () := by
    induction each with
    | nil => exact .nil ()
    | cons head _ ih => exact .cons (head.map fun a => (a, ())) ih
  exact (unfold steps).map Prod.fst

/-- Things of one kind are read off the joined forms of what they came from. -/
theorem times_map {ι : Type} {d : Decoder α} {form : ι → List UInt8} {v : ι → α}
    {items : List ι} (each : ∀ i ∈ items, Reads d (form i) (v i)) :
    Reads (Decoder.times items.length d) (items.flatMap form) (items.map v) := by
  have related : List.Forall₂ (Reads d) (items.map form) (items.map v) := by
    rw [List.forall₂_map_left_iff, List.forall₂_map_right_iff]
    exact List.forall₂_same.mpr each
  have read := times related
  rwa [List.length_map, ← List.flatMap_def] at read

/-- Things are read off their own joined forms. -/
theorem times_self {d : Decoder α} {form : α → List UInt8} {items : List α}
    (each : ∀ a ∈ items, Reads d (form a) a) :
    Reads (Decoder.times items.length d) (items.flatMap form) items := by
  have read := times_map (v := id) each
  rwa [List.map_id] at read

end Reads

/-! A joined form is at least as long as each of its pieces, and has a byte at
least for each of them. -/

/-- No piece is longer than all of them. -/
theorem length_le_flatMap {ι : Type} (form : ι → List UInt8) {items : List ι} {i : ι}
    (mem : i ∈ items) : (form i).length ≤ (items.flatMap form).length := by
  induction items with
  | nil => cases mem
  | cons j items ih =>
    rw [List.flatMap_cons, List.length_append]
    rcases List.mem_cons.mp mem with rfl | later
    · omega
    · have := ih later
      omega

/-- There are no more pieces than bytes, unless some are empty. -/
theorem count_le_flatMap {ι : Type} {form : ι → List UInt8} {items : List ι}
    (some : ∀ i ∈ items, form i ≠ []) : items.length ≤ (items.flatMap form).length := by
  induction items with
  | nil => simp
  | cons i items ih =>
    have head := List.length_pos_iff.mpr (some i List.mem_cons_self)
    have tail := ih fun j hj => some j (List.mem_cons_of_mem _ hj)
    rw [List.flatMap_cons, List.length_append, List.length_cons]
    omega

/-- Pieces of the same width are as long as their number says. -/
theorem length_flatMap_of {ι : Type} {form : ι → List UInt8} {width : Nat} {items : List ι}
    (each : ∀ i ∈ items, (form i).length = width) :
    (items.flatMap form).length = items.length * width := by
  induction items with
  | nil => simp
  | cons i items ih =>
    rw [List.flatMap_cons, List.length_append, each i List.mem_cons_self,
      ih fun j hj => each j (List.mem_cons_of_mem _ hj), List.length_cons, Nat.succ_mul, Nat.add_comm]

/-! ## Pieces at their offsets -/

/-- The piece of the bytes that starts at the offset. -/
def Stands (bytes : List UInt8) (offset : Nat) (item : List UInt8) : Prop :=
  ∃ front rest, bytes = front ++ (item ++ rest) ∧ front.length = offset

namespace Stands

variable {bytes item piece front back : List UInt8} {offset : Nat}

/-- An item stands behind what is in front of it. -/
theorem intro (front item rest : List UInt8) : Stands (front ++ (item ++ rest)) front.length item :=
  ⟨front, rest, rfl, rfl⟩

/-- All bytes stand at the start. -/
theorem whole (bytes : List UInt8) : Stands bytes 0 bytes := ⟨[], [], by simp, rfl⟩

/-- The front of what stands there stands there. -/
theorem left (h : Stands bytes offset (front ++ back)) : Stands bytes offset front := by
  obtain ⟨before, rest, rfl, rfl⟩ := h
  exact ⟨before, back ++ rest, by simp, rfl⟩

/-- The rest stands behind it. -/
theorem right (h : Stands bytes offset (front ++ back)) :
    Stands bytes (offset + front.length) back := by
  obtain ⟨before, rest, rfl, rfl⟩ := h
  exact ⟨before ++ front, rest, by simp, by simp⟩

/-- What stands somewhere does not reach over the end. -/
theorem bound (h : Stands bytes offset item) : offset + item.length ≤ bytes.length := by
  obtain ⟨front, rest, rfl, rfl⟩ := h
  simp only [List.length_append]
  omega

end Stands

/-- The image has all suffixes. -/
theorem suffixesFrom_eq (found : Array (List UInt8)) (bytes : List UInt8) :
    (Image.suffixesFrom found bytes).toList = found.toList ++ bytes.tails := by
  induction bytes generalizing found with
  | nil => simp [Image.suffixesFrom]
  | cons b bytes ih => simp [Image.suffixesFrom, ih]

/-- An image holds the tails of the bytes. -/
theorem ofBytes_eq (bytes : List UInt8) : Image.ofBytes bytes = ⟨bytes.tails.toArray⟩ := by
  have suffixes := suffixesFrom_eq #[] bytes
  rw [List.nil_append] at suffixes
  rw [Image.ofBytes, ← suffixes, Array.toArray_toList]

/-- At an offset it has what follows. -/
theorem suffixes_ofBytes (front rest : List UInt8) :
    (Image.ofBytes (front ++ rest)).suffixes[front.length]? = some rest := by
  rw [ofBytes_eq, List.getElem?_toArray]
  induction front with
  | nil => cases rest <;> simp
  | cons b front ih => rw [List.cons_append, List.tails, List.length_cons, List.getElem?_cons_succ, ih]

/-- A piece is read where it stands. -/
theorem Stands.decodeAt {bytes item : List UInt8} {offset : Nat} {d : Decoder α} {a : α}
    (h : Stands bytes offset item) (reads : Reads d item a) :
    (Image.ofBytes bytes).decodeAt offset d = .ok a := by
  obtain ⟨front, rest, rfl, rfl⟩ := h
  rw [Image.decodeAt, suffixes_ofBytes]
  simp only [reads rest]
  rfl

/-- A list is read where it stands, unless it stands at offset zero, which
means the empty list. -/
theorem Stands.listAt {bytes item : List UInt8} {offset : Nat} {d : Decoder (List α)} {as : List α}
    (h : Stands bytes offset item) (behind : 0 < offset) (reads : Reads d item as) :
    (Image.ofBytes bytes).listAt offset d = .ok as := by
  rw [Image.listAt, if_neg (by omega), h.decodeAt reads]

@[simp] theorem listAt_zero (image : Image) (d : Decoder (List α)) :
    image.listAt 0 d = .ok [] := by rw [Image.listAt, if_pos rfl]

end StubJar.Container
