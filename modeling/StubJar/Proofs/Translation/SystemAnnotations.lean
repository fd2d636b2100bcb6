import StubJar.Proofs.Translation.Contents

/-!
# What annotations for the virtual machine say

The generic signature of a class or of a member, and the exceptions that a method throws,
stand in annotations for the virtual machine. What a list of annotations says of the two is
stated here by the annotations alone (`Signs`, `Throws`): which of them counts, which of
its elements, and what is made of the items there. Translation finds just that
(`signature?_eq_some`, `throws_iff`), so an attribute is there exactly where the annotations
call for it (`isSignatureOf_iff`, `areThrownOf_iff`).
-/

namespace StubJar.Translation

open StubJar.Dalvik StubJar.ClassFile

/-! ## Lists of values -/

/-- The annotation is for the virtual machine, its type has the text, and the first of its
elements with the name `value` is an array of the items. -/
structure Carries (text : String) (a : Dalvik.Annotation) (items : List Value) : Prop where
  system : a.visibility = .system
  type : a.type.text = text
  value : ∃ before after, a.elements = before ++ ("value", .array items) :: after
    ∧ ∀ e ∈ before, "value" ≠ e.1

/-- The items are those of the first element with the name. -/
theorem valueItems?_eq_some {a : Dalvik.Annotation} {items : List Value} :
    valueItems? a = some items ↔ ∃ before after,
      a.elements = before ++ ("value", .array items) :: after ∧ ∀ e ∈ before, "value" ≠ e.1 := by
  have first : a.element? "value" = some (.array items) ↔ ∃ before after,
      a.elements = before ++ ("value", .array items) :: after ∧ ∀ e ∈ before, "value" ≠ e.1 := by
    simp only [Dalvik.Annotation.element?, List.lookup_eq_some_iff, bne_iff_ne]
  rw [← first, valueItems?]
  split
  · rename_i others found
    rw [found, Option.some.injEq, Option.some.injEq, Value.array.injEq]
  · rename_i other
    exact ⟨nofun, fun found => absurd found (other items)⟩

/-- The items that an annotation of the type has for the virtual machine. -/
def carried? (type : Descriptor) (a : Dalvik.Annotation) : Option (List Value) :=
  if a.visibility == .system && a.type == type then valueItems? a else none

/-- What the translator finds in an annotation is what it carries. -/
theorem carried?_eq_some {type : Descriptor} {a : Dalvik.Annotation} {items : List Value} :
    carried? type a = some items ↔ Carries type.text a items := by
  have types : a.type = type ↔ a.type.text = type.text :=
    ⟨congrArg Descriptor.text, congrArg Descriptor.mk⟩
  simp only [carried?, Option.ite_none_right_eq_some, Bool.and_eq_true, beq_iff_eq, types,
    valueItems?_eq_some]
  exact ⟨fun ⟨⟨system, type⟩, value⟩ => ⟨system, type, value⟩,
    fun h => ⟨⟨h.system, h.type⟩, h.value⟩⟩

/-- It finds nothing where nothing is carried. -/
theorem carried?_eq_none {type : Descriptor} {a : Dalvik.Annotation} :
    carried? type a = none ↔ ∀ items, ¬ Carries type.text a items := by
  simp only [Option.eq_none_iff_forall_ne_some, ne_eq, carried?_eq_some]

/-- The items of several annotations are found one annotation after another. -/
theorem systemItems_eq (type : Descriptor) (annotations : List Dalvik.Annotation) :
    systemItems type annotations = annotations.filterMap (carried? type) := by
  rw [systemItems, List.filterMap_filter]
  rfl

/-! ## The generic signature -/

/-- The strings among the values, one behind the other, are the text. -/
inductive Pieces : List Value → String → Prop
  | nil : Pieces [] ""
  | string {s t : String} {vs : List Value} (rest : Pieces vs t) : Pieces (.string s :: vs) (s ++ t)
  | other {v : Value} {t : String} {vs : List Value} (other : ∀ s, v ≠ .string s)
      (rest : Pieces vs t) : Pieces (v :: vs) t

/-- The annotations carry the signature: it is in the last one that has a list of pieces,
and those before it do not count. -/
def Signs (annotations : List Dalvik.Annotation) (signature : String) : Prop :=
  ∃ before a after items, annotations = before ++ a :: after
    ∧ Carries "Ldalvik/annotation/Signature;" a items ∧ Pieces items signature
    ∧ ∀ later ∈ after, ∀ others, ¬ Carries "Ldalvik/annotation/Signature;" later others

/-- Texts are joined one behind another. -/
theorem join_cons (s : String) (texts : List String) :
    String.join (s :: texts) = s ++ String.join texts := by
  rw [← String.toList_inj]
  simp

/-- The pieces are put together in their order. -/
theorem pieces_iff {vs : List Value} {t : String} :
    Pieces vs t ↔ t = String.join (vs.filterMap stringOf?) := by
  constructor
  · intro pieces
    induction pieces with
    | nil => rfl
    | string _ ih => rw [List.filterMap_cons_some (f := stringOf?) rfl, join_cons, ← ih]
    | @other v t vs other _ ih =>
      have none : stringOf? v = none := by
        cases v with
        | string s => exact absurd rfl (other s)
        | _ => rfl
      rw [List.filterMap_cons_none none, ← ih]
  · rintro rfl
    induction vs with
    | nil => exact .nil
    | cons v vs ih =>
      cases v with
      | string s =>
        rw [List.filterMap_cons_some (f := stringOf?) rfl, join_cons]
        exact .string ih
      | _ => exact .other (fun _ => nofun) ih

/-- Translation finds the signature that the annotations carry. -/
theorem signature?_eq_some {annotations : List Dalvik.Annotation} {s : String} :
    signature? annotations = some s ↔ Signs annotations s := by
  have text : signatureType.text = "Ldalvik/annotation/Signature;" := rfl
  rw [signature?, systemItems_eq, Option.map_eq_some_iff, Signs, ← text]
  constructor
  · rintro ⟨items, last, rfl⟩
    obtain ⟨earlier, split⟩ := List.getLast?_eq_some_iff.mp last
    obtain ⟨front, back, rfl, -, found⟩ := List.filterMap_eq_append_iff.mp split
    obtain ⟨skipped, a, after, rfl, -, carried, rest⟩ := List.filterMap_eq_cons_iff.mp found
    refine ⟨front ++ skipped, a, after, items, (List.append_assoc _ _ _).symm,
      carried?_eq_some.mp carried, pieces_iff.mpr rfl, fun later mem => ?_⟩
    exact carried?_eq_none.mp (List.filterMap_eq_nil_iff.mp rest later mem)
  · rintro ⟨before, a, after, items, rfl, carried, pieces, none⟩
    refine ⟨items, ?_, (pieces_iff.mp pieces).symm⟩
    have nothing : after.filterMap (carried? signatureType) = [] :=
      List.filterMap_eq_nil_iff.mpr fun later mem => carried?_eq_none.mpr (none later mem)
    rw [List.filterMap_append, List.filterMap_cons_some (carried?_eq_some.mpr carried), nothing,
      List.getLast?_concat]

/-! ## Exceptions -/

/-- The name of a type: what stands between `L` and `;`, or the whole text if it is not of
that form. -/
inductive Names (d : Descriptor) : String → Prop
  | ofClass {name : String} (form : d.text = "L" ++ name ++ ";") : Names d name
  | whole (other : ∀ name, d.text ≠ "L" ++ name ++ ";") : Names d d.text

/-- The names of the types among the values. -/
inductive NamesOf : List Value → List String → Prop
  | nil : NamesOf [] []
  | type {d : Descriptor} {name : String} {vs : List Value} {names : List String}
      (named : Names d name) (rest : NamesOf vs names) : NamesOf (.type d :: vs) (name :: names)
  | other {v : Value} {vs : List Value} {names : List String} (other : ∀ d, v ≠ .type d)
      (rest : NamesOf vs names) : NamesOf (v :: vs) names

/-- The exceptions that annotations list: those of every annotation that has a list. -/
inductive Throws : List Dalvik.Annotation → List String → Prop
  | nil : Throws [] []
  | listed {a : Dalvik.Annotation} {annotations : List Dalvik.Annotation} {items : List Value}
      {names others : List String} (carried : Carries "Ldalvik/annotation/Throws;" a items)
      (named : NamesOf items names) (rest : Throws annotations others) :
      Throws (a :: annotations) (names ++ others)
  | other {a : Dalvik.Annotation} {annotations : List Dalvik.Annotation} {names : List String}
      (other : ∀ items, ¬ Carries "Ldalvik/annotation/Throws;" a items)
      (rest : Throws annotations names) : Throws (a :: annotations) names

/-- The class that a type names is what stands between its letter and the semicolon. -/
theorem className?_eq_some {d : Descriptor} {name : String} :
    d.className? = some name ↔ d.text = "L" ++ name ++ ";" := by
  rw [← String.toList_inj, String.toList_append, String.toList_append, Descriptor.className?]
  split
  · rename_i letters form
    rw [form]
    split
    · rename_i last
      obtain ⟨front, rfl⟩ := List.getLast?_eq_some_iff.mp last
      rw [List.dropLast_concat, Option.some.injEq, ← String.toList_inj, String.toList_ofList]
      simp
    · rename_i other
      refine ⟨nofun, fun same => absurd ?_ other⟩
      have tail : letters = name.toList ++ [';'] := (List.cons.inj same).2
      rw [tail, List.getLast?_concat]
  · rename_i other
    exact ⟨nofun, fun same => absurd same (other _)⟩

/-- A class is named as the translator names it. -/
theorem names_iff {d : Descriptor} {name : String} :
    Names d name ↔ name = d.className?.getD d.text := by
  cases known : d.className? with
  | some own =>
    have form := className?_eq_some.mp known
    constructor
    · rintro (form' | other)
      · exact Option.some.inj ((className?_eq_some.mpr form').symm.trans known)
      · exact absurd form (other own)
    · rintro rfl
      exact .ofClass form
  | none =>
    have other : ∀ name, d.text ≠ "L" ++ name ++ ";" := fun name form =>
      nomatch known.symm.trans (className?_eq_some.mpr form)
    constructor
    · rintro (form | _)
      · exact absurd form (other name)
      · rfl
    · rintro rfl
      exact .whole other

/-- So are all classes that are thrown. -/
theorem namesOf_iff {vs : List Value} {names : List String} :
    NamesOf vs names ↔ names = vs.filterMap thrownOf? := by
  constructor
  · intro named
    induction named with
    | nil => rfl
    | @type d name vs names named _ ih =>
      have first : thrownOf? (.type d) = some name := congrArg some (names_iff.mp named).symm
      rw [List.filterMap_cons_some first, ← ih]
    | @other v vs names other _ ih =>
      have none : thrownOf? v = none := by
        cases v with
        | type d => exact absurd rfl (other d)
        | _ => rfl
      rw [List.filterMap_cons_none none, ← ih]
  · rintro rfl
    induction vs with
    | nil => exact .nil
    | cons v vs ih =>
      cases v with
      | type d => exact .type (names_iff.mpr rfl) ih
      | _ => exact .other (fun _ => nofun) ih

/-- Translation finds the exceptions that the annotations list. -/
theorem throws_iff {annotations : List Dalvik.Annotation} {names : List String} :
    Throws annotations names ↔ names = thrown annotations := by
  rw [thrown, systemItems_eq]
  constructor
  · intro throws
    induction throws with
    | nil => rfl
    | listed carried named _ ih =>
      have found : carried? throwsType _ = some _ := carried?_eq_some.mpr carried
      rw [List.filterMap_cons_some found, List.flatten_cons, List.filterMap_append, ← ih, ← namesOf_iff.mp named]
    | other other _ ih =>
      have none : carried? throwsType _ = none := carried?_eq_none.mpr other
      rw [List.filterMap_cons_none none, ← ih]
  · rintro rfl
    induction annotations with
    | nil => exact .nil
    | cons a annotations ih =>
      cases found : carried? throwsType a with
      | some items =>
        rw [List.filterMap_cons_some found, List.flatten_cons, List.filterMap_append]
        exact .listed (carried?_eq_some.mp found) (namesOf_iff.mpr rfl) ih
      | none =>
        rw [List.filterMap_cons_none found]
        exact .other (carried?_eq_none.mp found) ih

/-! ## Attributes -/

/-- The attribute for the signature is there just where the annotations carry one. -/
inductive IsSignatureOf (annotations : List Dalvik.Annotation) : List Resolved.Attribute → Prop
  | carried {s : String} (signs : Signs annotations s) : IsSignatureOf annotations [.signature s]
  | none (unsigned : ∀ s, ¬ Signs annotations s) : IsSignatureOf annotations []

/-- The attribute for exceptions is there just where the annotations list some. -/
inductive AreThrownOf (annotations : List Dalvik.Annotation) : List Resolved.Attribute → Prop
  | listed {name : String} {names : List String} (throws : Throws annotations (name :: names)) :
      AreThrownOf annotations [.exceptions (name :: names)]
  | none (throws : Throws annotations []) : AreThrownOf annotations []

/-- What is to be said of signatures is what the translator writes. -/
theorem isSignatureOf_iff {annotations : List Dalvik.Annotation} {xs : List Resolved.Attribute} :
    IsSignatureOf annotations xs ↔ xs = signatureContents annotations := by
  unfold signatureContents
  constructor
  · rintro (signs | unsigned)
    · rw [signature?_eq_some.mpr signs]
      rfl
    · rw [Option.eq_none_iff_forall_ne_some.mpr fun s found => unsigned s (signature?_eq_some.mp found)]
      rfl
  · rintro rfl
    cases found : signature? annotations with
    | some s => exact .carried (signature?_eq_some.mp found)
    | none => exact .none fun s signs => nomatch found.symm.trans (signature?_eq_some.mpr signs)

/-- The exceptions in a class file. -/
def exceptionContents (annotations : List Dalvik.Annotation) : List Resolved.Attribute :=
  if !(thrown annotations).isEmpty then [.exceptions (thrown annotations)] else []

theorem areThrownOf_iff {annotations : List Dalvik.Annotation} {xs : List Resolved.Attribute} :
    AreThrownOf annotations xs ↔ xs = exceptionContents annotations := by
  unfold exceptionContents
  constructor
  · rintro (throws | throws)
    · rw [← throws_iff.mp throws]
      rfl
    · rw [← throws_iff.mp throws]
      rfl
  · rintro rfl
    cases found : thrown annotations with
    | nil => exact .none (throws_iff.mpr found.symm)
    | cons name names => exact .listed (throws_iff.mpr found.symm)

end StubJar.Translation
