import StubJar.Proofs.Translation.Attributes
import StubJar.Proofs.Translation.Contents

/-!
# What class files keep of annotations

Reading the attributes that are made of annotations gives back the annotations for the
program and those for tools, without the values that a class file cannot express and with
nothing else changed (`attributes_expressed`). A value that is left out is left out as a
whole, from an array or from an annotation at any depth, and what is left without it stays.

The reader takes an attribute apart with the constants of the pool (`readContents`) and
then reads every value by its letter: a number must be one of the kind that the letter asks
for, or it is no value (`numberOf?`). So the way from values to bytes and back is an
equation between values, by one induction for both directions of nesting
(`value?_elementContents`).
-/

namespace StubJar.Dalvik

/-! ## Values that a class file can express -/

/-- Whether an annotation of a class file can hold a value of the kind. -/
def Value.isExpressible : Value → Bool
  | .null | .methodType _ | .methodHandle _ | .field _ | .method _ => false
  | _ => true

mutual

/-- The value without the values in it that a class file cannot express. The constant of
an enumeration is named by its type instead of the class that has the field. -/
def Value.trimmed : Value → Value
  | .enum f => .enum ⟨f.type, f.name, f.type⟩
  | .array items => .array (Value.trimmedItems items)
  | .nested d elements => .nested d (Value.trimmedElements elements)
  | v => v

/-- The values of a list that a class file can express. -/
def Value.trimmedItems : List Value → List Value
  | [] => []
  | v :: vs => if v.isExpressible then v.trimmed :: Value.trimmedItems vs else Value.trimmedItems vs

/-- The elements whose values a class file can express. -/
def Value.trimmedElements : List (String × Value) → List (String × Value)
  | [] => []
  | (name, v) :: elements =>
    if v.isExpressible then (name, v.trimmed) :: Value.trimmedElements elements
    else Value.trimmedElements elements

end

mutual

/-- Whether two bytes can count the items of each list in a value. -/
def Value.isCountable : Value → Bool
  | .array items => items.length < 2 ^ 16 && Value.itemsCountable items
  | .nested _ elements => elements.length < 2 ^ 16 && Value.elementsCountable elements
  | _ => true

/-- Whether that holds of each value of a list. -/
def Value.itemsCountable : List Value → Bool
  | [] => true
  | v :: vs => v.isCountable && Value.itemsCountable vs

/-- Whether that holds of the value of each element of a list. -/
def Value.elementsCountable : List (String × Value) → Bool
  | [] => true
  | (_, v) :: elements => v.isCountable && Value.elementsCountable elements

end

namespace Annotation

/-- The annotation without the values that a class file cannot express. -/
def trimmed (a : Annotation) : Annotation := { a with elements := Value.trimmedElements a.elements }

/-- The lists in an annotation can be counted. -/
def isCountable (a : Annotation) : Bool :=
  a.elements.length < 2 ^ 16 && Value.elementsCountable a.elements

end Annotation

end StubJar.Dalvik

namespace StubJar.ClassFile.Grammar

/-- Reads the constants of a pool, behind its next free slot. -/
def readPool : Reader (List Constant) := do readConstants ((← Reader.number 2) - 1)

/-- The pool is read back. -/
theorem whole_readPool {p : ConstantPool} (wf : ConstantPool.WellFormed p)
    (texts : ∀ c ∈ p.constants.toList, Short c) : whole? readPool p.encode = some p.constants.toList := by
  have constants := spells_constants fun c mem => spells_constant wf (wf.resolved c mem) (texts c mem)
  have slots : p.next - 1 = slotsOf p.constants.toList := by rw [wf.next, Nat.add_sub_cancel_left]
  rw [← slots] at constants
  have room : p.next < 256 ^ 2 := Nat.lt_of_le_of_lt wf.room (by decide)
  exact ((Spells.number (k := 2) room).bind constants).whole

end StubJar.ClassFile.Grammar

namespace StubJar.Translation

open StubJar.Dalvik StubJar.ClassFile StubJar.ClassFile.ConstantPool

/-! ## From class files to values -/

/-- A number as a value of the kind of the letter, if it is one. -/
def numberOf? (tag : Nat) (n : Int32) : Option Value :=
  match tag with
  | 0x42 => if n.toInt8.toInt32 = n then some (.byte n.toInt8) else none
  | 0x53 => if n.toInt16.toInt32 = n then some (.short n.toInt16) else none
  | 0x43 => if n.toUInt32.toNat < 2 ^ 16 then some (.char n.toUInt32.toUInt16) else none
  | 0x49 => some (.int n)
  | 0x5A => if n = 0 then some (.boolean false) else if n = 1 then some (.boolean true) else none
  | _ => none

/-- A constant as a value of the kind of the letter, if it is one. -/
def valueOf? (tag : Nat) : Resolved.Literal → Option Value
  | .int n => numberOf? tag n
  | .long v => if tag = 0x4A then some (.long v) else none
  | .float bits => if tag = 0x46 then some (.float bits) else none
  | .double bits => if tag = 0x44 then some (.double bits) else none
  | .string s => if tag = 0x73 then some (.string s) else none

mutual

/-- The value that a class file holds. -/
def value? : Resolved.ElementValue → Option Value
  | .constant tag l => valueOf? tag l
  | .enum type name => some (.enum ⟨⟨type⟩, name, ⟨type⟩⟩)
  | .classInfo descriptor => some (.type ⟨descriptor⟩)
  | .nested type elements => (elementValues? elements).map (.nested ⟨type⟩)
  | .array items => (itemValues? items).map .array

/-- The values of a list. -/
def itemValues? : List Resolved.ElementValue → Option (List Value)
  | [] => some []
  | x :: xs => do return (← value? x) :: (← itemValues? xs)

/-- The elements of a list. -/
def elementValues? : List (String × Resolved.ElementValue) → Option (List (String × Value))
  | [] => some []
  | (name, x) :: xs => do return (name, ← value? x) :: (← elementValues? xs)

end

/-- The annotation that a class file holds. -/
def annotation? (visible : Bool) (x : Resolved.Annotation) : Option Dalvik.Annotation := do
  return ⟨seenBy visible, ⟨x.type⟩, ← elementValues? x.elements⟩

/-- The annotations of a class or a member that an attribute holds. -/
def annotations? (cs : List Constant) (a : Attribute) :
    Option (Visibility × List Dalvik.Annotation) := do
  match ← Grammar.whole? (Resolved.readContents cs a.info.length (← Grammar.text? cs a.name)) a.info with
  | .annotations visible xs => return (seenBy visible, ← xs.mapM (annotation? visible))
  | _ => none

/-- The annotations of each parameter that an attribute holds. -/
def parameterAnnotations? (cs : List Constant) (a : Attribute) :
    Option (Visibility × List (List Dalvik.Annotation)) := do
  match ← Grammar.whole? (Resolved.readContents cs a.info.length (← Grammar.text? cs a.name)) a.info with
  | .parameterAnnotations visible xss =>
    return (seenBy visible, ← xss.mapM (List.mapM (annotation? visible)))
  | _ => none

/-! ## There and back -/

/-- A value has contents exactly if it can be expressed. -/
theorem isSome_elementContents (v : Value) : (elementContents v).isSome = v.isExpressible := by
  cases v <;> rw [elementContents] <;> rfl

/-- A unit is read back from its number. -/
theorem numberOf?_char (u : UInt16) : numberOf? 0x43 (Int32.ofInt u.toNat) = some (.char u) := by
  have small := u.toNat_lt
  have same : (Int32.ofInt u.toNat).toUInt32 = u.toUInt32 := by
    apply UInt32.toNat_inj.mp
    rw [Int32.ofInt_eq_ofNat, Int32.toUInt32_ofNat', UInt32.toNat_ofNat', UInt16.toNat_toUInt32,
      Nat.mod_eq_of_lt (by omega)]
  rw [numberOf?, same, UInt16.toNat_toUInt32, if_pos small, UInt16.toUInt16_toUInt32]

mutual

/-- What a class file holds of a value is the value without what it cannot express. -/
theorem value?_elementContents (v : Value) {x : Resolved.ElementValue}
    (h : elementContents v = some x) : value? x = some v.trimmed := by
  cases v with
  | byte v =>
    rw [elementContents, Int32.ofInt_int8ToInt] at h
    cases h
    simp [value?, valueOf?, numberOf?, Value.trimmed]
  | short v =>
    rw [elementContents, Int32.ofInt_int16ToInt] at h
    cases h
    simp [value?, valueOf?, numberOf?, Value.trimmed]
  | char u =>
    rw [elementContents] at h
    cases h
    simp [value?, valueOf?, numberOf?_char, Value.trimmed]
  | int v =>
    rw [elementContents, Int32.ofInt_toInt] at h
    cases h
    simp [value?, valueOf?, numberOf?, Value.trimmed]
  | boolean b =>
    rw [elementContents] at h
    cases h
    cases b <;> simp [value?, valueOf?, numberOf?, Value.trimmed]
  | long | float | double | string | type | enum =>
    rw [elementContents] at h
    cases h
    simp [value?, valueOf?, Value.trimmed]
  | array items =>
    rw [elementContents] at h
    cases h
    rw [value?, itemValues?_itemContents items, Option.map_some, Value.trimmed]
  | nested d elements =>
    rw [elementContents] at h
    cases h
    rw [value?, elementValues?_elementsContents elements, Option.map_some, Value.trimmed]
  | null | methodType | methodHandle | field | method =>
    rw [elementContents] at h
    cases h

/-- The items of an array are read back, those left out that cannot be expressed. -/
theorem itemValues?_itemContents (vs : List Value) :
    itemValues? (itemContents vs) = some (Value.trimmedItems vs) := by
  cases vs with
  | nil => rw [itemContents, itemValues?, Value.trimmedItems]
  | cons v vs =>
    have rest := itemValues?_itemContents vs
    rw [itemContents, Value.trimmedItems, ← isSome_elementContents]
    cases found : elementContents v with
    | none => exact rest
    | some x =>
      rw [Option.toList_some, List.singleton_append, itemValues?, value?_elementContents v found, rest]
      rfl

theorem elementValues?_elementsContents (elements : List (String × Value)) :
    elementValues? (elementsContents elements) = some (Value.trimmedElements elements) := by
  cases elements with
  | nil => rw [elementsContents, elementValues?, Value.trimmedElements]
  | cons e elements =>
    have rest := elementValues?_elementsContents elements
    rw [elementsContents, Value.trimmedElements, ← isSome_elementContents]
    cases found : elementContents e.2 with
    | none => exact rest
    | some x =>
      rw [Option.map_some, Option.toList_some, List.singleton_append, elementValues?,
        value?_elementContents e.2 found, rest]
      rfl

end

mutual

/-- The lists in it are those of the value without what it cannot express. -/
theorem isCountable_elementContents (v : Value) {x : Resolved.ElementValue}
    (h : elementContents v = some x) : x.isCountable = v.trimmed.isCountable := by
  cases v with
  | array items =>
    rw [elementContents] at h
    cases h
    obtain ⟨length, each⟩ := countable_itemContents items
    rw [Resolved.ElementValue.isCountable, Value.trimmed, Value.isCountable, length, each]
  | nested d elements =>
    rw [elementContents] at h
    cases h
    obtain ⟨length, each⟩ := countable_elementsContents elements
    rw [Resolved.ElementValue.isCountable, Value.trimmed, Value.isCountable, length, each]
  | null | methodType | methodHandle | field | method =>
    rw [elementContents] at h
    cases h
  | _ =>
    rw [elementContents] at h
    cases h
    simp [Resolved.ElementValue.isCountable, Value.trimmed, Value.isCountable]

/-- As many items are written as are kept. -/
theorem countable_itemContents (vs : List Value) :
    (itemContents vs).length = (Value.trimmedItems vs).length
      ∧ Resolved.ElementValue.itemsCountable (itemContents vs)
        = Value.itemsCountable (Value.trimmedItems vs) := by
  cases vs with
  | nil => rw [itemContents, Value.trimmedItems]; exact ⟨rfl, rfl⟩
  | cons v vs =>
    obtain ⟨length, each⟩ := countable_itemContents vs
    rw [itemContents, Value.trimmedItems, ← isSome_elementContents]
    cases found : elementContents v with
    | none => exact ⟨length, each⟩
    | some x =>
      rw [Option.toList_some, List.singleton_append, Option.isSome_some, if_pos rfl]
      rw [List.length_cons, List.length_cons, Resolved.ElementValue.itemsCountable,
        Value.itemsCountable, isCountable_elementContents v found, length, each]
      exact ⟨rfl, rfl⟩

/-- As many elements are. -/
theorem countable_elementsContents (elements : List (String × Value)) :
    (elementsContents elements).length = (Value.trimmedElements elements).length
      ∧ Resolved.ElementValue.elementsCountable (elementsContents elements)
        = Value.elementsCountable (Value.trimmedElements elements) := by
  cases elements with
  | nil => rw [elementsContents, Value.trimmedElements]; exact ⟨rfl, rfl⟩
  | cons e elements =>
    obtain ⟨length, each⟩ := countable_elementsContents elements
    rw [elementsContents, Value.trimmedElements, ← isSome_elementContents]
    cases found : elementContents e.2 with
    | none => exact ⟨length, each⟩
    | some x =>
      rw [Option.map_some, Option.toList_some, List.singleton_append, Option.isSome_some, if_pos rfl]
      rw [List.length_cons, List.length_cons, Resolved.ElementValue.elementsCountable,
        Value.elementsCountable, isCountable_elementContents e.2 found, length, each]
      exact ⟨rfl, rfl⟩

end

/-! ## Annotations -/

/-- The annotations that someone gets to see, without the values that a class file cannot
express. -/
def kept (seen : Visibility) (annotations : List Dalvik.Annotation) : List Dalvik.Annotation :=
  (annotations.filter (·.visibility == seen)).map Dalvik.Annotation.trimmed

/-- A list of annotations and the lists in them can be counted. -/
def areCountable (annotations : List Dalvik.Annotation) : Bool :=
  annotations.length < 2 ^ 16 && annotations.all Dalvik.Annotation.isCountable

/-- What the attributes for annotations hold: the annotations for the program if there are
any, then those for tools. -/
def expressed (annotations : List Dalvik.Annotation) : List (Visibility × List Dalvik.Annotation) :=
  ([.runtime, .build].filter fun seen => annotations.any (·.visibility == seen)).map
    fun seen => (seen, kept seen annotations)

/-- What the attributes for annotations of parameters hold: those of every parameter, if
any parameter has some. -/
def parametersExpressed (parameters : List (List Dalvik.Annotation)) :
    List (Visibility × List (List Dalvik.Annotation)) :=
  ([.runtime, .build].filter fun seen => parameters.any (·.any (·.visibility == seen))).map
    fun seen => (seen, parameters.map (kept seen))

/-- Each item of a list as what it was made of. -/
theorem mapM_map_eq_some {α β γ : Type} {f : β → Option γ} {make : α → β} {g : α → γ} {items : List α}
    (each : ∀ a ∈ items, f (make a) = some (g a)) : (items.map make).mapM f = some (items.map g) := by
  induction items with
  | nil => rfl
  | cons a items ih =>
    rw [List.map_cons, List.mapM_cons, each a List.mem_cons_self,
      ih fun b mem => each b (List.mem_cons_of_mem a mem)]
    rfl

/-- The visibility is one that attributes are for. -/
theorem mem_seen {α : Type} {present : Visibility → Bool} {group : Visibility → α} (visible : Bool)
    (shown : present (seenBy visible) = true) : (seenBy visible, group (seenBy visible))
      ∈ ([.runtime, .build].filter present).map fun seen => (seen, group seen) := by
  refine List.mem_map_of_mem (List.mem_filter.mpr ⟨?_, shown⟩)
  cases visible <;> decide

section Contents

variable (visible : Bool) (annotations : List Dalvik.Annotation)

/-- There is something to write if an annotation has the visibility. -/
theorem isEmpty_contentsOf :
    (!(contentsOf visible annotations).isEmpty) = annotations.any (·.visibility == seenBy visible) := by
  rw [contentsOf, List.isEmpty_map, Bool.eq_iff_iff]
  simp [List.filter_eq_nil_iff]

/-- What a class file holds of annotations is read as the annotations. -/
theorem mapM_contentsOf : (contentsOf visible annotations).mapM (annotation? visible)
    = some (kept (seenBy visible) annotations) := by
  rw [contentsOf, kept]
  refine mapM_map_eq_some fun a mem => ?_
  rw [annotation?, annotationContents, elementValues?_elementsContents,
    ← eq_of_beq (List.mem_filter.mp mem).2]
  rfl

/-- What is written is countable if what is kept is. -/
theorem areCountable_contentsOf : Resolved.areCountable (contentsOf visible annotations)
    = areCountable (kept (seenBy visible) annotations) := by
  have each (a : Dalvik.Annotation) : (annotationContents a).isCountable = a.trimmed.isCountable := by
    obtain ⟨length, values⟩ := countable_elementsContents a.elements
    rw [Resolved.Annotation.isCountable, annotationContents, Dalvik.Annotation.isCountable,
      Dalvik.Annotation.trimmed, length, values]
  rw [contentsOf, kept, Resolved.areCountable, areCountable, List.length_map, List.length_map,
    List.all_map, List.all_map]
  congr 2
  exact funext each

end Contents

/-! ## Attributes -/

/-- The attribute has the name and the bytes of the content. -/
def Holding (p : ConstantPool) (a : Attribute) (content : Content) : Prop :=
  a.Named p content.name ∧ a.info = content.encode

/-- What an attribute holds stays so when a pool grows. -/
theorem Holding.persistent (a : Attribute) (content : Content) :
    Persistent fun p => Holding p a content :=
  fun _ _ grown found => ⟨Holds.mono found.1 grown, found.2⟩

/-- The name is found in the pool, and the bytes are read under it. -/
theorem Holding.read {p : ConstantPool} {a : Attribute} {content : Content} {x : Resolved.Attribute}
    (h : Holding p a content) (wf : WellFormed p) (tells : Resolved.ContentTells p content x)
    (countable : x.isCountable = true) :
    Grammar.text? p.constants.toList a.name = some content.name
      ∧ Grammar.whole? (Resolved.readContents p.constants.toList a.info.length content.name) a.info
        = some x := by
  refine ⟨Grammar.text?_eq h.1, ?_⟩
  rw [h.2]
  exact (tells countable).whole (.refl p) wf

/-- An attribute is made where it is needed. -/
theorem attributeIf_spec (isNeeded : Bool) (content : Content) :
    Meets (fun _ => True) (attributeIf isNeeded content)
      (fun as p => List.Forall₂ (Holding p) as (if isNeeded then [content] else []))
      ClassFile.Fault.IsOverflow := by
  cases isNeeded with
  | false => exact Meets.pure fun _ _ => .nil
  | true => exact (Attribute.of_spec content).bind fun a => Meets.pure fun p holds => .cons holds .nil

/-- The computation fails only where the pool is full, and from then on the attributes are
read as those. The bytes of the pool are read as its constants, if they can count each
text. -/
def ReadAs {α : Type} (x : PoolM ClassFile.Fault (List Attribute))
    (read? : List Constant → Attribute → Option α) (found : List α) : Prop :=
  Meets (fun _ => True) x (fun as q => ∀ r, Grown q r → WellFormed r →
    as.mapM (read? r.constants.toList) = some found
      ∧ ((∀ c ∈ r.constants.toList, Grammar.Short c) →
        Grammar.whole? Grammar.readPool r.encode = some r.constants.toList))
    ClassFile.Fault.IsOverflow

/-- What is known of a result and what is known of a fault belong together. -/
theorem Gives.both {ε α : Type} {x : PoolM ε α} {post : α → ConstantPool → Prop} {faults : ε → Prop}
    (gives : Gives x post) (fails : Meets (fun _ => True) x (fun _ _ => True) faults) :
    Meets (fun _ => True) x post faults := by
  intro p wf before
  have result := gives p wf before
  have fault := fails p wf before
  generalize x p = outcome at result fault ⊢
  obtain ⟨_ | a, q⟩ := outcome
  · exact fault
  · exact result

/-- The annotations of a split with a visibility. -/
def Split.of (s : Split) (visible : Bool) : List ClassFile.Annotation :=
  if visible then s.visible else s.invisible

/-- Each list says what the annotations of its visibility say. -/
theorem SplitTells.of {annotations : List Dalvik.Annotation} {s : Split} {p : ConstantPool}
    (h : SplitTells annotations s p) (visible : Bool) :
    List.Forall₂ (Resolved.AnnotationTells p) (s.of visible) (contentsOf visible annotations) := by
  cases visible with
  | true => exact h.1
  | false => exact h.2

/-- An attribute that is needed or not is read alone or not at all. -/
theorem mapM_of_holding {β : Type} {p : ConstantPool} {as : List Attribute} {content : Content}
    {isNeeded : Bool} {read? : Attribute → Option β} {b : β}
    (held : List.Forall₂ (Holding p) as (if isNeeded then [content] else []))
    (read : isNeeded = true → ∀ a, Holding p a content → read? a = some b) :
    as.mapM read? = some (if isNeeded then [b] else []) := by
  cases isNeeded with
  | false =>
    cases held
    rfl
  | true =>
    obtain ⟨a, _, head, rest, rfl⟩ := List.forall₂_cons_right_iff.mp held
    cases rest
    rw [List.mapM_cons, read rfl a head]
    rfl

section Attributes

variable {σ α : Type} {x : PoolM ClassFile.Fault σ} {told : σ → ConstantPool → Prop}
  {read? : List Constant → Attribute → Option (Visibility × α)} {present : Visibility → Bool}
  {group : Visibility → α}

/-- A computation, then two attributes of what it gives: one for the program and one for
tools. -/
theorem ReadAs.of_contents (made : Meets (fun _ => True) x told ClassFile.Fault.IsOverflow)
    (keeps : ∀ s, Persistent (told s)) (needed : σ → Bool → Bool) (content : σ → Bool → Content)
    (asNeeded : ∀ s p visible, told s p → needed s visible = present (seenBy visible))
    (tells : ∀ s p visible, told s p → WellFormed p → present (seenBy visible) = true →
      ∀ a, Holding p a (content s visible) →
        read? p.constants.toList a = some (seenBy visible, group (seenBy visible))) :
    ReadAs (do
      let s ← x
      let first ← attributeIf (needed s true) (content s true)
      let second ← attributeIf (needed s false) (content s false)
      return first ++ second) read?
      (([.runtime, .build].filter present).map fun seen => (seen, group seen)) := by
  have persistent (contents : List Content) (as : List Attribute) :
      Persistent fun p => List.Forall₂ (Holding p) as contents :=
    Persistent.forall₂ Holding.persistent as contents
  refine Meets.bind made fun s => ?_
  refine Meets.step (keeps s) (attributeIf_spec _ _) fun first => ?_
  refine Meets.step ((persistent _ first).and (keeps s)) (attributeIf_spec _ _) fun second => ?_
  refine Meets.pure fun q ⟨two, one, holds⟩ r grown wf => ⟨?_, Grammar.whole_readPool wf⟩
  rw [asNeeded s q true holds] at one
  rw [asNeeded s q false holds] at two
  have later := keeps s q r grown holds
  rw [List.mapM_append, mapM_of_holding (persistent _ first q r grown one) (tells s r true later wf),
    mapM_of_holding (persistent _ second q r grown two) (tells s r false later wf)]
  cases runtime : present .runtime <;> cases build : present .build <;> simp [seenBy, runtime, build]

end Attributes

/-- Annotations are split unless the pool overflows. -/
theorem split_tells (annotations : List Dalvik.Annotation) :
    Meets (fun _ => True) (split annotations) (SplitTells annotations) ClassFile.Fault.IsOverflow :=
  (split_gives annotations).both (overflows_split annotations)

/-- The attributes of annotations are read back as those that can be expressed. -/
theorem readAs_annotationAttributes (annotations : List Dalvik.Annotation)
    (few : ∀ g ∈ expressed annotations, areCountable g.2 = true) :
    ReadAs (annotationAttributes annotations) annotations? (expressed annotations) := by
  refine ReadAs.of_contents (split_tells annotations) (SplitTells.persistent annotations)
    (fun s visible => !(s.of visible).isEmpty) (fun s visible => .annotations visible (s.of visible))
    (fun s p visible told => ?_) (fun s p visible told wf shown a held => ?_)
  · rw [isEmpty_congr (told.of visible), isEmpty_contentsOf]
  · have counted := few (seenBy visible, kept (seenBy visible) annotations)
      (mem_seen visible shown)
    rw [← areCountable_contentsOf] at counted
    obtain ⟨name, info⟩ := held.read wf (.annotations (told.of visible)) counted
    rw [annotations?, name]
    dsimp only [Option.bind_eq_bind, Option.bind_some]
    rw [info]
    dsimp only [Option.bind_some]
    rw [mapM_contentsOf]
    rfl

theorem readAs_parameterAttributes (parameters : List (List Dalvik.Annotation))
    (places : parameters.length < 2 ^ 8)
    (few : ∀ g ∈ parametersExpressed parameters, ∀ annotations ∈ g.2, areCountable annotations = true) :
    ReadAs (parameterAttributes parameters) parameterAnnotations? (parametersExpressed parameters) := by
  have splits : Meets (fun _ => True) (parameters.mapM split)
      (fun ss p => List.Forall₂ (fun annotations s => SplitTells annotations s p) parameters ss)
      ClassFile.Fault.IsOverflow :=
    Meets.mapM SplitTells.persistent fun annotations _ => split_tells annotations
  refine ReadAs.of_contents splits (Persistent.forall₂ SplitTells.persistent parameters)
    (fun ss visible => (ss.map (Split.of · visible)).any (!·.isEmpty))
    (fun ss visible => .parameterAnnotations visible (ss.map (Split.of · visible)))
    (fun ss p visible told => ?_) (fun ss p visible told wf shown a held => ?_)
  all_goals
    have each : List.Forall₂ (List.Forall₂ (Resolved.AnnotationTells p))
        (ss.map (Split.of · visible)) (parameters.map (contentsOf visible)) :=
      List.forall₂_map_left_iff.mpr (List.forall₂_map_right_iff.mpr
        (told.flip.imp fun _ _ tells => SplitTells.of tells visible))
  · rw [any_congr each, List.any_map]
    exact congrArg _ (funext fun annotations => isEmpty_contentsOf visible annotations)
  · have counted := few _ (mem_seen visible shown)
    have countable : (Resolved.Attribute.parameterAnnotations visible
        (parameters.map (contentsOf visible))).isCountable = true := by
      simp only [Resolved.Attribute.isCountable, List.length_map, List.all_map, Bool.and_eq_true,
        decide_eq_true_eq, List.all_eq_true, Function.comp_apply, areCountable_contentsOf]
      exact ⟨places, fun annotations mem => counted _ (List.mem_map_of_mem mem)⟩
    obtain ⟨name, info⟩ := held.read wf (.parameterAnnotations each) countable
    rw [parameterAnnotations?, name]
    dsimp only [Option.bind_eq_bind, Option.bind_some]
    rw [info]
    dsimp only [Option.bind_some]
    rw [mapM_map_eq_some fun annotations _ => mapM_contentsOf visible annotations]
    rfl

/-- From any well-formed pool, annotations become the attributes that they need, and these
are read as the annotations for the program and those for tools, in their order and each
set only where there are some. They are read without the values that a class file cannot
express and as they are in all else, if the lists in them can be counted. So are the
annotations of at most 255 parameters, each at the place of its parameter. -/
theorem attributes_expressed (annotations : List Dalvik.Annotation)
    (parameters : List (List Dalvik.Annotation)) :
    ((∀ g ∈ expressed annotations, areCountable g.2 = true) →
      ReadAs (annotationAttributes annotations) annotations? (expressed annotations))
      ∧ (parameters.length < 2 ^ 8 →
        (∀ g ∈ parametersExpressed parameters, ∀ ofOne ∈ g.2, areCountable ofOne = true) →
        ReadAs (parameterAttributes parameters) parameterAnnotations? (parametersExpressed parameters)) :=
  ⟨readAs_annotationAttributes annotations, readAs_parameterAttributes parameters⟩

/-! ## Values that are left out, and a parameter without annotations -/

/-- Annotations for the virtual machine and for the program, the latter with values that a
class file cannot express. -/
def sampleAnnotations : List Dalvik.Annotation :=
  [⟨.system, ⟨"LS;"⟩, []⟩, ⟨.runtime, ⟨"LA;"⟩, [("x", .array [.null, .int 1]), ("y", .null)]⟩]

/-- An annotation for tools on the second of two parameters. -/
def sampleParameters : List (List Dalvik.Annotation) := [[], [⟨.build, ⟨"LB;"⟩, []⟩]]

theorem attributes_sample :
    (∃ as cs, annotationAttributes sampleAnnotations (ofConstants []) = (.ok as, ofConstants cs))
      ∧ ∃ as cs, parameterAttributes sampleParameters (ofConstants []) = (.ok as, ofConstants cs) := by
  constructor
  all_goals
    simp (disch := decide) only [sampleAnnotations, annotationAttributes, sampleParameters,
      parameterAttributes, split, markedForm, visible?, annotationForm, elementForms, elementForm,
      itemForms, attributeIf, Attribute.of, Content.name, PoolM.integer, PoolM.utf8, PoolM.bind_run,
      PoolM.pure_run, PoolM.slot_ofConstants, slotsOf, Constant.width, List.mapM_nil,
      List.mapM_cons, List.filterMap, List.filter, List.map_nil, List.map_cons, List.sum_nil,
      List.sum_cons, List.any_nil, List.any_cons, List.isEmpty_nil, List.isEmpty_cons,
      List.nil_append, List.cons_append, id, Bool.not_true, Bool.not_false, Bool.or_true,
      Bool.or_false, Bool.false_eq_true, if_true, if_false]
    exact ⟨_, _, rfl⟩

theorem attributes_expressed_sample :
    (∃ as q, annotationAttributes sampleAnnotations .empty = (.ok as, q)
      ∧ as.mapM (annotations? q.constants.toList)
        = some [(.runtime, [⟨.runtime, ⟨"LA;"⟩, [("x", .array [.int 1])]⟩])])
    ∧ ∃ as q, parameterAttributes sampleParameters .empty = (.ok as, q)
      ∧ as.mapM (parameterAnnotations? q.constants.toList)
        = some [(.build, [[], [⟨.build, ⟨"LB;"⟩, []⟩]])] := by
  obtain ⟨ofClass, ofParameters⟩ := attributes_expressed sampleAnnotations sampleParameters
  obtain ⟨⟨as, cs, ran⟩, bs, ds, ranToo⟩ := attributes_sample
  have ofOne := ofClass (by decide) (ofConstants []) wellFormed_empty trivial
  have parameters := ofParameters (by decide) (by decide) (ofConstants []) wellFormed_empty trivial
  rw [ran] at ofOne
  rw [ranToo] at parameters
  obtain ⟨wf, _, read⟩ := ofOne
  obtain ⟨wfToo, _, readToo⟩ := parameters
  exact ⟨⟨as, _, ran, (read _ (.refl _) wf).1⟩, bs, _, ranToo, (readToo _ (.refl _) wfToo).1⟩

end StubJar.Translation
