import StubJar.Proofs.Container.Geometry

/-!
# Tables of the same mentions

The tables of a file depend on nothing but which things the file mentions
(`Pool.ofMentions_congr`): neither the order of the mentions nor their number
matters. A file that mentions fewer things has smaller tables, so that what fits
the indices into them still does (`checkSizes_of_subset`).
-/

namespace StubJar.Container

open StubJar.Dalvik StubJar.Order StubJar.Text

variable {ms ns : List Mention}

/-- More mentions are more things. -/
theorem flatMap_subset {α : Type} (subset : ms ⊆ ns) (things : Mention → List α) :
    ms.flatMap things ⊆ ns.flatMap things := by
  intro a mem
  obtain ⟨m, hm, ha⟩ := List.mem_flatMap.mp mem
  exact List.mem_flatMap.mpr ⟨m, subset hm, ha⟩

/-- The same mentions are the same things. -/
theorem mem_flatMap_congr {α : Type} (same : ∀ m, m ∈ ms ↔ m ∈ ns) (things : Mention → List α)
    (a : α) : a ∈ ms.flatMap things ↔ a ∈ ns.flatMap things :=
  ⟨fun mem => flatMap_subset (fun m => (same m).mp) things mem,
    fun mem => flatMap_subset (fun m => (same m).mpr) things mem⟩

/-! ## The same mentions -/

/-- Where the kinds of handles go with their members, a handle has a key of its
own. -/
theorem handleKey_injective (agree : ∀ h ∈ ms.flatMap Mention.handles, h.Agrees)
    {h k : MethodHandle} (hh : h ∈ ms.flatMap Mention.handles)
    (hk : k ∈ ms.flatMap Mention.handles)
    (same : handleKey (Pool.ofMentions ms) h = handleKey (Pool.ofMentions ms) k) : h = k := by
  simp only [handleKey, List.cons.injEq, and_true] at same
  obtain ⟨codes, members⟩ := same
  have kinds : h.kind = k.kind := by
    generalize h.kind = a, k.kind = b at codes
    cases a <;> cases b <;> first | rfl | cases codes
  have agree_h := agree h hh
  have agree_k := agree k hk
  obtain ⟨kind, m⟩ := h
  obtain ⟨_, n⟩ := k
  obtain rfl : kind = _ := kinds
  cases m with
  | field f =>
    cases n with
    | field g =>
      have equal : f = g := Table.indexOf_injective _ (mem_flatMap_of (fun _ mem =>
        member_mem_fields mem rfl) hh) (mem_flatMap_of (fun _ mem => member_mem_fields mem rfl) hk)
        members
      rw [equal]
    | method s =>
      rw [MethodHandle.Agrees] at agree_h agree_k
      exact absurd (agree_h.symm.trans agree_k) (by decide)
  | method r =>
    cases n with
    | field g =>
      rw [MethodHandle.Agrees] at agree_h agree_k
      exact absurd (agree_h.symm.trans agree_k) (by decide)
    | method s =>
      have equal : r = s := Table.indexOf_injective _ (mem_flatMap_of (fun _ mem =>
        member_mem_methods mem rfl) hh) (mem_flatMap_of (fun _ mem => member_mem_methods mem rfl) hk)
        members
      rw [equal]

/-- Files that mention the same things have the same tables, if each handle has a key of
its own. -/
theorem Pool.ofMentions_congr_of_apart (same : ∀ m, m ∈ ms ↔ m ∈ ns)
    (apart : ∀ h ∈ ms.flatMap Mention.handles, ∀ k ∈ ms.flatMap Mention.handles,
      handleKey (Pool.ofMentions ms) h = handleKey (Pool.ofMentions ms) k → h = k) :
    Pool.ofMentions ms = Pool.ofMentions ns := by
  -- Each table is sorted under keys that the tables before it give.
  have strings : (ofMentions ms).strings = (ofMentions ns).strings :=
    Table.ofItems_eq _ (mem_flatMap_congr same _) (fun _ _ _ _ => units_injective) fun _ _ _ _ => rfl
  have typeKeys : typeKey (ofMentions ms) = typeKey (ofMentions ns) := by
    funext d
    simp only [typeKey, Pool.string, strings]
  have types : (ofMentions ms).types = (ofMentions ns).types :=
    Table.ofItems_eq (typeKey (ofMentions ms)) (mem_flatMap_congr same _)
      (fun _ hd _ he => typeKey_injective hd he) fun _ _ _ _ => by rw [typeKeys]; rfl
  have prototypeKeys : prototypeKey (ofMentions ms) = prototypeKey (ofMentions ns) := by
    funext q
    refine List.map_congr_left fun d _ => ?_
    simp only [Pool.type, types]
  have prototypes : (ofMentions ms).prototypes = (ofMentions ns).prototypes :=
    Table.ofItems_eq (prototypeKey (ofMentions ms)) (mem_flatMap_congr same _)
      (fun _ hq _ hr => prototypeKey_injective hq hr) fun _ _ _ _ => by rw [prototypeKeys]; rfl
  have fieldKeys : fieldKey (ofMentions ms) = fieldKey (ofMentions ns) := by
    funext f
    simp only [fieldKey, Pool.type, Pool.string, types, strings]
  have fields : (ofMentions ms).fields = (ofMentions ns).fields :=
    Table.ofItems_eq (fieldKey (ofMentions ms)) (mem_flatMap_congr same _)
      (fun _ hf _ hg => fieldKey_injective hf hg) fun _ _ _ _ => by rw [fieldKeys]; rfl
  have methodKeys : methodKey (ofMentions ms) = methodKey (ofMentions ns) := by
    funext m
    simp only [methodKey, Pool.type, Pool.string, Pool.prototype, types, strings, prototypes]
  have methods : (ofMentions ms).methods = (ofMentions ns).methods :=
    Table.ofItems_eq (methodKey (ofMentions ms)) (mem_flatMap_congr same _)
      (fun _ hm _ hn => methodKey_injective hm hn) fun _ _ _ _ => by rw [methodKeys]; rfl
  have handleKeys : handleKey (ofMentions ms) = handleKey (ofMentions ns) := by
    funext h
    have member : (ofMentions ms).member h.member = (ofMentions ns).member h.member := by
      cases h.member with
      | field f => simp only [Pool.member, Pool.field, fields]
      | method m => simp only [Pool.member, Pool.method, methods]
    simp only [handleKey, member]
  have handles : (ofMentions ms).handles = (ofMentions ns).handles :=
    Table.ofItems_eq (handleKey (ofMentions ms)) (mem_flatMap_congr same _) apart
      fun _ _ _ _ => by rw [handleKeys]; rfl
  have needs : (ofMentions ms).needsHandles = (ofMentions ns).needsHandles := by
    show ms.any _ = ns.any _
    rw [Bool.eq_iff_iff, List.any_eq_true, List.any_eq_true]
    exact exists_congr fun m => and_congr_left fun _ => same m
  rcases h : ofMentions ms with ⟨⟩
  rcases h' : ofMentions ns with ⟨⟩
  rw [h, h'] at strings types prototypes fields methods handles needs
  subst strings types prototypes fields methods handles needs
  rfl

/-- That is so where their kinds go with their members. -/
theorem Pool.ofMentions_congr (same : ∀ m, m ∈ ms ↔ m ∈ ns)
    (agree : ∀ h ∈ ms.flatMap Mention.handles, h.Agrees) :
    Pool.ofMentions ms = Pool.ofMentions ns :=
  ofMentions_congr_of_apart same fun _ hh _ hk => handleKey_injective agree hh hk

/-! ## Fewer mentions -/

/-- A table passes if it has no more items than the limit. -/
theorem checkSize_eq_ok {table : TableName} {limit count : Nat} :
    Pool.checkSize table limit count = .ok () ↔ count ≤ limit := by
  rw [Pool.checkSize]
  split
  · rename_i many
    exact ⟨nofun, fun few => absurd many (Nat.not_lt.mpr few)⟩
  · rename_i few
    exact ⟨fun _ => Nat.not_lt.mp few, fun _ => rfl⟩

/-- What the tables have to fit. -/
theorem checkSizes_eq_ok {p : Pool} : p.checkSizes = .ok () ↔ p.types.size ≤ 0xFFFF
    ∧ p.prototypes.size ≤ 0xFFFF
    ∧ (p.handles.size ≠ 0 → p.fields.size ≤ 0x10000 ∧ p.methods.size ≤ 0x10000) := by
  have unit {x : Except EncodeFault Unit} {y : Unit → Except EncodeFault Unit} :
      x >>= y = .ok () ↔ x = .ok () ∧ y () = .ok () := by
    rw [bind_eq_ok]
    exact ⟨fun ⟨_, h⟩ => h, fun h => ⟨_, h⟩⟩
  rw [Pool.checkSizes, unit, unit, checkSize_eq_ok, checkSize_eq_ok]
  refine and_congr_right fun _ => and_congr_right fun _ => ?_
  by_cases none : p.handles.size = 0
  · rw [if_neg (not_not.mpr none)]
    exact ⟨fun _ some => absurd none some, fun _ => rfl⟩
  · rw [if_pos none, unit, checkSize_eq_ok, checkSize_eq_ok]
    exact ⟨fun fit _ => fit, fun fit => fit none⟩

/-- Fewer mentions fit as well. -/
theorem checkSizes_of_subset (subset : ms ⊆ ns) (fit : (Pool.ofMentions ns).checkSizes = .ok ()) :
    (Pool.ofMentions ms).checkSizes = .ok () := by
  rw [checkSizes_eq_ok] at fit ⊢
  obtain ⟨types, prototypes, members⟩ := fit
  have handles : (Pool.ofMentions ms).handles.size ≤ (Pool.ofMentions ns).handles.size :=
    Table.size_le_of_subset (flatMap_subset subset _)
  refine ⟨?_, ?_, fun some => ?_⟩
  · exact Nat.le_trans (Table.size_le_of_subset (flatMap_subset subset _)) types
  · exact Nat.le_trans (Table.size_le_of_subset (flatMap_subset subset _)) prototypes
  · obtain ⟨fields, methods⟩ := members (by omega)
    exact ⟨Nat.le_trans (Table.size_le_of_subset (flatMap_subset subset _)) fields,
      Nat.le_trans (Table.size_le_of_subset (flatMap_subset subset _)) methods⟩

end StubJar.Container
