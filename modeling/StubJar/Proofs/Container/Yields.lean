import StubJar.Container.Decoder
import StubJar.Container.ValueForm
import StubJar.Proofs.Bytes.Leb128
import StubJar.Proofs.Bytes.Numbers
import StubJar.Proofs.Success

/-!
# What decoders yield

`Yields d P` says that whatever the decoder `d` reads off any input has the
property `P`. It says nothing of what is left of the input, nor of whether
anything is read at all, so it composes along the steps of a decoder
(`Yields.bind`) and through repetition (`Yields.times`, `Yields.unfold`).
-/

namespace StubJar.Container

open StubJar.Bytes

variable {α β σ : Type}

/-- All that the decoder can read has the property. -/
def Yields (d : Decoder α) (P : α → Prop) : Prop :=
  ∀ input a rest, d input = .ok (a, rest) → P a

namespace Yields

variable {P : α → Prop} {Q : β → Prop} {I : σ → Prop}

/-- Two steps yield what the second does with what the first yields. -/
theorem bind {d : Decoder α} {f : α → Decoder β} (first : Yields d P)
    (second : ∀ a, P a → Yields (f a) Q) : Yields (d >>= f) Q := by
  intro input b rest h
  obtain ⟨⟨a, middle⟩, read, h⟩ := bind_eq_ok.mp h
  exact second a (first input a middle read) middle b rest h

/-- A step of which nothing is needed. -/
theorem skip {d : Decoder α} {f : α → Decoder β} (second : ∀ a, Yields (f a) Q) :
    Yields (d >>= f) Q :=
  bind (P := fun _ => True) (fun _ _ _ _ => trivial) fun a _ => second a

/-- A result yields what holds of it. -/
theorem pure {a : α} (holds : P a) : Yields (Pure.pure a) P := by
  intro input b rest h
  cases h
  exact holds

/-- A fault yields nothing. -/
theorem throw {fault : DecodeFault} : Yields (MonadExcept.throw fault : Decoder α) P := by
  intro input b rest h
  cases h

/-- What is known yields what holds of it. -/
theorem lift {x : Except DecodeFault α} (holds : ∀ a, x = .ok a → P a) :
    Yields (liftM x : Decoder α) P := by
  intro input b rest h
  cases x with
  | error fault => cases h
  | ok a =>
    cases h
    exact holds _ rfl

theorem lift_bind {x : Except DecodeFault α} {f : α → Decoder β}
    (next : ∀ a, x = .ok a → Yields (f a) Q) : Yields (liftM x >>= f) Q :=
  (lift (P := fun a => x = .ok a) fun _ h => h).bind next

/-- Steps that keep an invariant yield what each of them does. -/
theorem unfoldFrom {step : σ → Decoder (α × σ)}
    (each : ∀ s, I s → Yields (step s) fun x => P x.1 ∧ I x.2) (n : Nat) {s : σ} {read : List α}
    {input rest : List UInt8} {x : List α × σ} (start : I s) (before : ∀ a ∈ read, P a)
    (h : Decoder.unfoldFrom step n s read input = .ok (x, rest)) : (∀ a ∈ x.1, P a) ∧ I x.2 := by
  induction n generalizing s read input with
  | zero =>
    cases h
    exact ⟨fun a ha => before a (List.mem_reverse.mp ha), start⟩
  | succ n ih =>
    rw [Decoder.unfoldFrom] at h
    split at h
    · rename_i a s' rest' found
      obtain ⟨holds, kept⟩ := each s start input (a, s') rest' found
      refine ih kept (fun b hb => ?_) h
      rcases List.mem_cons.mp hb with rfl | later
      · exact holds
      · exact before b later
    · cases h

/-- What each of several steps yields, all of them do, if each keeps what the
next one needs of the state. -/
theorem unfold {step : σ → Decoder (α × σ)}
    (each : ∀ s, I s → Yields (step s) fun x => P x.1 ∧ I x.2) (n : Nat) {s : σ} (start : I s) :
    Yields (Decoder.unfold step n s) fun x => (∀ a ∈ x.1, P a) ∧ I x.2 := fun _ _ _ h =>
  unfoldFrom each n start (fun _ ha => absurd ha List.not_mem_nil) h

/-- Items are what each of them is. -/
theorem times {d : Decoder α} (each : Yields d P) (n : Nat) :
    Yields (Decoder.times n d) fun as => ∀ a ∈ as, P a :=
  (unfold (I := fun _ => True) (fun _ _ => each.bind fun _ holds => pure ⟨holds, trivial⟩) n
    trivial).bind fun _ holds => pure holds.1

theorem countedList {d : Decoder α} (each : Yields d P) :
    Yields (Container.countedList d) fun as => ∀ a ∈ as, P a := skip fun n => each.times n

/-- What yields two things yields both. -/
theorem and {P' : α → Prop} {d : Decoder α} (one : Yields d P) (other : Yields d P') :
    Yields d fun a => P a ∧ P' a :=
  fun input a rest h => ⟨one input a rest h, other input a rest h⟩

/-- A number whose length varies has 32 bits. -/
theorem uleb : Yields Decoder.uleb (· < 2 ^ 32) := by
  intro input n rest h
  rw [Decoder.uleb] at h
  split at h
  · rename_i found
    cases h
    exact Leb128.decode_lt found
  · cases h

/-- There are as many results as steps. -/
theorem length_unfoldFrom {step : σ → Decoder (α × σ)} {n : Nat} {s s' : σ} {read as : List α}
    {input rest : List UInt8} (h : Decoder.unfoldFrom step n s read input = .ok ((as, s'), rest)) :
    as.length = read.length + n := by
  induction n generalizing s read input with
  | zero =>
    cases h
    exact List.length_reverse
  | succ n ih =>
    rw [Decoder.unfoldFrom] at h
    split at h
    · rw [ih h, List.length_cons, Nat.add_right_comm, Nat.add_assoc]
    · cases h

/-- As many things are read as are asked for. -/
theorem length_times (d : Decoder α) (n : Nat) :
    Yields (Decoder.times n d) fun as => as.length = n :=
  Yields.bind (P := fun x : List α × Unit => x.1.length = n)
    (fun _ _ _ h => (length_unfoldFrom h).trans (Nat.zero_add n))
    fun _ length => pure length

/-- A list has no more items than its number can say. -/
theorem length_countedList (d : Decoder α) :
    Yields (Container.countedList d) fun as => as.length < 2 ^ 32 :=
  uleb.bind fun size few input as rest h => by
    rw [length_times d size input as rest h]
    exact few

/-- What is read at an offset is what is read anywhere. -/
theorem decodeAt {d : Decoder α} (each : Yields d P) {image : Image} {offset : Nat} {a : α}
    (h : image.decodeAt offset d = .ok a) : P a := by
  rw [Image.decodeAt] at h
  split at h
  · obtain ⟨⟨b, rest⟩, read, rfl⟩ := map_eq_ok.mp h
    exact each _ b rest read
  · cases h

/-- So are the items of a list, if there is one. -/
theorem listAt {d : Decoder (List α)} (each : Yields d fun as => ∀ a ∈ as, P a) {image : Image}
    {offset : Nat} {as : List α} (h : image.listAt offset d = .ok as) : ∀ a ∈ as, P a := by
  rw [Image.listAt] at h
  split at h
  · cases h
    exact fun a ha => absurd ha List.not_mem_nil
  · exact decodeAt each h

end Yields

end StubJar.Container
