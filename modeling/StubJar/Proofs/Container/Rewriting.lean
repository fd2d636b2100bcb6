import StubJar.Proofs.Container.Pools
import StubJar.Proofs.Container.Rereading
import StubJar.Proofs.Container.SameForm

/-!
# Writing what was read

What was read off a container is written again (`Legible.encode_reread`), in general to
other bytes: the items stand in the order in which the classes were listed, and what
was read lists them in the order of their hierarchy. From then on nothing changes any
more (`Legible.decode_again`).
-/

namespace StubJar.Container

open StubJar.Dalvik StubJar.Order

/-! ## Normal forms are written alike -/

section NormalForms

variable {ms : List Mention} {d : Descriptor} {elements : List (String × Value)}

/-- Elements are written in their order, each as its normal form is if its value is. -/
theorem encodeParts_normal (mentioned : ∀ m ∈ .type d :: Value.elementMentions elements, m ∈ ms)
    (values : ∀ e ∈ elements, encodeValue (Pool.ofMentions ms) e.2.normal
      = encodeValue (Pool.ofMentions ms) e.2) :
    encodeParts (Pool.ofMentions ms) d (byName (Value.elementsNormal elements))
      = encodeParts (Pool.ofMentions ms) d elements := by
  have names := mem_strings_of_elements fun m hm => holds_of_mention (mentioned m hm)
  have names' : ∀ e ∈ byName (Value.elementsNormal elements), e.1 ∈ ms.flatMap Mention.strings := by
    intro e he
    rw [mem_byName, Value.elementsNormal_eq] at he
    obtain ⟨e', he', rfl⟩ := List.mem_map.mp he
    exact names e' he'
  rw [encodeParts, encodeParts, orderedElements_eq names', orderedElements_eq names, byName_byName,
    byName_normal, List.map_map]
  refine congrArg (fun forms => _ ++ counted forms) (List.map_congr_left fun e he => ?_)
  exact congrArg (uleb _ ++ ·) (values e (mem_byName.mp he))

mutual

/-- A value is written as its normal form is. -/
theorem encodeValue_normal (v : Value) (mentioned : ∀ m ∈ v.mentions, m ∈ ms) :
    encodeValue (Pool.ofMentions ms) v.normal = encodeValue (Pool.ofMentions ms) v := by
  cases v with
  | array items =>
    rw [Value.normal, encodeValue, encodeValue, encodeValues_eq, encodeValues_eq,
      Value.allNormal_eq, List.map_map]
    refine congrArg (fun forms => _ :: counted forms) (List.map_congr_left fun w hw => ?_)
    exact encodeValues_normal items (by rwa [Value.mentions] at mentioned) w hw
  | nested d elements =>
    rw [Value.mentions] at mentioned
    rw [Value.normal, encodeValue, encodeValue]
    exact congrArg (List.cons _) (encodeParts_normal mentioned
      (encodeElements_normal elements fun m hm => mentioned m (List.mem_cons_of_mem _ hm)))
  | _ => rfl

/-- The items of an array are written as their normal forms are. -/
theorem encodeValues_normal (vs : List Value) (mentioned : ∀ m ∈ Value.allMentions vs, m ∈ ms) :
    ∀ v ∈ vs, encodeValue (Pool.ofMentions ms) v.normal = encodeValue (Pool.ofMentions ms) v := by
  cases vs with
  | nil => exact fun _ mem => nomatch mem
  | cons v vs =>
    rw [Value.allMentions] at mentioned
    intro w mem
    rcases List.mem_cons.mp mem with same | later
    · rw [same]
      exact encodeValue_normal v fun m hm => mentioned m (List.mem_append_left _ hm)
    · exact encodeValues_normal vs (fun m hm => mentioned m (List.mem_append_right _ hm)) w later

theorem encodeElements_normal (elements : List (String × Value))
    (mentioned : ∀ m ∈ Value.elementMentions elements, m ∈ ms) :
    ∀ e ∈ elements, encodeValue (Pool.ofMentions ms) e.2.normal
      = encodeValue (Pool.ofMentions ms) e.2 := by
  cases elements with
  | nil => exact fun _ mem => nomatch mem
  | cons e elements =>
    rw [Value.elementMentions] at mentioned
    intro e' mem
    rcases List.mem_cons.mp mem with same | later
    · rw [same]
      exact encodeValue_normal e.2 fun m hm =>
        mentioned m (List.mem_cons_of_mem _ (List.mem_append_left _ hm))
    · exact encodeElements_normal elements (fun m hm =>
        mentioned m (List.mem_cons_of_mem _ (List.mem_append_right _ hm))) e' later

end

theorem encodeAnnotationItem_normal (a : Annotation) (mentioned : ∀ m ∈ a.mentions, m ∈ ms) :
    encodeAnnotationItem (Pool.ofMentions ms) a.normal
      = encodeAnnotationItem (Pool.ofMentions ms) a :=
  congrArg (List.cons _) (encodeParts_normal mentioned
    (encodeElements_normal a.elements fun m hm => mentioned m (List.mem_cons_of_mem _ hm)))

end NormalForms

section Sets

variable {ms : List Mention} {as bs : List Annotation}

/-- The items of a set are those of its normal form. -/
theorem orderedSet_items (mentioned : ∀ a ∈ as, ∀ m ∈ a.mentions, m ∈ ms) :
    (orderedSet (Pool.ofMentions ms) as).map (encodeAnnotationItem (Pool.ofMentions ms))
      = (normalSet as).map (encodeAnnotationItem (Pool.ofMentions ms)) := by
  rw [← orderedSet_normal mentioned, List.map_map]
  refine List.map_congr_left fun a ha => ?_
  exact (encodeAnnotationItem_normal a (mentioned a (mem_sortOn.mp ha))).symm

/-- Sets of one normal form are written as the same items. -/
theorem sameSet_of_normal (mentioned : ∀ a ∈ as, ∀ m ∈ a.mentions, m ∈ ms)
    (same : normalSet as = normalSet bs) : SameSet (Pool.ofMentions ms) as bs := by
  have mentioned' : ∀ b ∈ bs, ∀ m ∈ b.mentions, m ∈ ms := fun b hb m hm => by
    have known := (mem_mentions_normalSet bs).mpr (List.mem_flatMap.mpr ⟨b, hb, hm⟩)
    rw [← same] at known
    obtain ⟨a, ha, hm⟩ := List.mem_flatMap.mp ((mem_mentions_normalSet as).mp known)
    exact mentioned a ha m hm
  rw [SameSet, orderedSet_items mentioned, orderedSet_items mentioned', same]

/-- A set is written as its normal form is. -/
theorem sameSet_normal (mentioned : ∀ a ∈ as, ∀ m ∈ a.mentions, m ∈ ms) :
    SameSet (Pool.ofMentions ms) as (normalSet as) :=
  sameSet_of_normal mentioned (normalSet_normalSet as).symm

end Sets

/-! ## What was read is written -/

section Reread

variable {f : File} {order : List Nat} {b b' : List UInt8}

/-- A body is accepted or refused whatever method it belongs to. -/
theorem checkBody_of {m n : Method} {body : Body} (h : checkBody m body = .ok ()) :
    checkBody n body = .ok () := by
  unfold checkBody at h ⊢
  split at h
  · cases h
  · rename_i plain
    rw [if_neg plain]
    split at h
    · rfl
    · cases h

/-- Bodies that were read pass the check again. -/
theorem checkBodies_reread (h : Writes f order b) :
    checkBodies (bodies (placedOf (reread f order))) = .ok () := by
  refine checkBodies_eq_ok.mpr fun d hd m hm body has => ?_
  obtain ⟨_, _, c, stands, rfl⟩ := mem_reread.mp hd
  obtain ⟨n, hn, rfl⟩ := List.mem_map.mp ((normalMethods_perm c.methods).subset hm)
  exact checkBody_of (checkBodies_eq_ok.mp h.checked c (List.mem_of_getElem? stands) n hn body has)

/-- The version is not raised again. -/
theorem writtenVersion_reread (f : File) (order : List Nat) :
    writtenVersion (poolOf (reread f order)) (reread f order) = (reread f order).version := by
  rw [writtenVersion]
  split
  · rename_i needs
    have raised : (poolOf f).needsHandles = true := by
      obtain ⟨m, hm, handle⟩ := List.any_eq_true.mp (show (reread f order).mentions.any _ = true from needs)
      exact List.any_eq_true.mpr ⟨m, reread_mentions hm, handle⟩
    rw [reread, writtenVersion, if_pos raised, Nat.max_assoc, Nat.max_self]
  · rfl

/-- What was read passes every check of writing. -/
theorem writes_reread (h : Writes f order b) :
    ∃ b', Writes (reread f order) (List.range (reread f order).classes.length) b' := by
  refine ⟨_, fun q hq => ?_, checkSizes_of_subset reread_mentions h.sizes, .refl _,
    checkBodies_reread h, rfl⟩
  exact h.letters q (flatMap_subset reread_mentions _ hq)

namespace Legible

/-- A file that was read from its container can be read from the next one. -/
theorem reread (h : Legible f order b)
    (writes : Writes (reread f order) (List.range (reread f order).classes.length) b')
    (small : b'.length < 2 ^ 32) :
    Legible (reread f order) (List.range (Container.reread f order).classes.length) b' :=
  (sound_of_decode h.decode_eq).legible (methodsDistinct_reread h.perm h.distinct) writes small

/-- What was read is written again. -/
theorem encode_reread (h : Legible f order b) (ordered : Hierarchy.order f.classes = .ok order)
    (distinct : (f.classes.map ClassDecl.type).Nodup) :
    ∃ b', encode (Container.reread f order) = .ok b' := by
  obtain ⟨b', writes⟩ := writes_reread h.toWrites
  exact ⟨b', encode_eq_ok.mpr ⟨_, order_reread ordered distinct, writes⟩⟩

/-- From what was read and written again, the same is read. -/
theorem decode_again (h : Legible f order b) (ordered : Hierarchy.order f.classes = .ok order)
    (distinct : (f.classes.map ClassDecl.type).Nodup)
    (written : encode (Container.reread f order) = .ok b') (small : b'.length < 2 ^ 32) :
    decode b' = .ok (Container.reread f order) := by
  obtain ⟨order', ordered', writes⟩ := encode_eq_ok.mp written
  obtain rfl := Except.ok.inj ((order_reread ordered distinct).symm.trans ordered')
  have inside : ∀ i ∈ order, i < f.classes.length := fun i hi =>
    List.mem_range.mp (h.perm.subset hi)
  rw [(h.reread writes small).decode_eq, writtenVersion_reread, readClasses_reread inside]

end Legible

end Reread

end StubJar.Container
