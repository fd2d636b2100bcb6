import StubJar.Proofs.Container.Geometry
import StubJar.Proofs.Container.Values

/-!
# Parts of the same form

What is written for a class depends on the forms of its parts alone: the indices,
flags and bodies of its members, and the bytes of its values and annotations in
their order. `SameForm p x y` says that two classes agree in all of these under the
indices of a pool; classes that do so pairwise are placed alike
(`Layout.ofClasses_congr`), however their members and annotations are listed.
-/

namespace StubJar.Container

open StubJar.Dalvik StubJar.Order

section Related

variable {α β γ : Type} {R : α → β → Prop} {as : List α} {bs : List β}

theorem flatMap_eq_of_forall₂ {f : α → List γ} {g : β → List γ} (related : List.Forall₂ R as bs)
    (each : ∀ a b, R a b → f a = g b) : as.flatMap f = bs.flatMap g := by
  rw [List.flatMap_def, List.flatMap_def, map_eq_of_forall₂ related each]

theorem filterMap_eq_of_forall₂ {f : α → Option γ} {g : β → Option γ}
    (related : List.Forall₂ R as bs) (each : ∀ a b, R a b → f a = g b) :
    as.filterMap f = bs.filterMap g := by
  induction related with
  | nil => rfl
  | cons head _ ih => rw [List.filterMap_cons, List.filterMap_cons, each _ _ head, ih]

end Related

/-- Two sets of annotations are written as the same items. -/
def SameSet (p : Pool) (as bs : List Annotation) : Prop :=
  (orderedSet p as).map (encodeAnnotationItem p) = (orderedSet p bs).map (encodeAnnotationItem p)

/-- Two fields with their indices are written alike. -/
structure SameField (p : Pool) (x y : Nat × Field) : Prop where
  index : x.1 = y.1
  flags : x.2.flags = y.2.flags
  annotations : SameSet p x.2.annotations y.2.annotations

/-- Two methods with their indices are written alike. -/
structure SameMethod (p : Pool) (x y : Nat × Method) : Prop where
  index : x.1 = y.1
  flags : x.2.flags = y.2.flags
  body : x.2.body = y.2.body
  annotations : SameSet p x.2.annotations y.2.annotations
  parameters : List.Forall₂ (SameSet p) x.2.parameterAnnotations y.2.parameterAnnotations

/-- Two classes at the same position are written alike. -/
structure SameForm (p : Pool) (x y : Placed) : Prop where
  position : x.position = y.position
  interfaces : x.type.interfaces = y.type.interfaces
  annotations : SameSet p x.type.annotations y.type.annotations
  statics : List.Forall₂ (SameField p) x.members.statics y.members.statics
  instances : List.Forall₂ (SameField p) x.members.instances y.members.instances
  directs : List.Forall₂ (SameMethod p) x.members.directs y.members.directs
  virtuals : List.Forall₂ (SameMethod p) x.members.virtuals y.members.virtuals
  values : encodeValues p x.members.initialValues = encodeValues p y.members.initialValues

namespace SameSet

variable {p : Pool} {as bs : List Annotation}

/-- Sets of the same form have as many annotations. -/
theorem length_eq (h : SameSet p as bs) : (orderedSet p as).length = (orderedSet p bs).length := by
  have lengths := congrArg List.length h
  rwa [List.length_map, List.length_map] at lengths

/-- They are both empty or both not. -/
theorem isEmpty_eq (h : SameSet p as bs) : as.isEmpty = bs.isEmpty := by
  have lengths := h.length_eq
  rw [orderedSet, orderedSet, length_sortOn, length_sortOn] at lengths
  rw [Bool.eq_iff_iff, List.isEmpty_iff_length_eq_zero, List.isEmpty_iff_length_eq_zero, lengths]

end SameSet

namespace SameForm

variable {p : Pool} {x y : Placed}

/-- Classes of the same form have fields of the same form. -/
theorem fields (h : SameForm p x y) :
    List.Forall₂ (SameField p) x.members.fields y.members.fields :=
  List.rel_append h.statics h.instances

/-- They have methods of the same form. -/
theorem methods (h : SameForm p x y) :
    List.Forall₂ (SameMethod p) x.members.methods y.members.methods :=
  List.rel_append h.directs h.virtuals

/-! ## Annotations -/

/-- The same owner has sets of the same form. -/
def SameOwned (p : Pool) (a b : SetOwner × List Annotation) : Prop := a.1 = b.1 ∧ SameSet p a.2 b.2

/-- The sets of their parameters have the same form. -/
theorem parameterSets {c i : Nat} {m n : Method}
    (related : List.Forall₂ (SameSet p) m.parameterAnnotations n.parameterAnnotations) :
    List.Forall₂ (SameOwned p) (Placed.parameterSets c i m) (Placed.parameterSets c i n) := by
  unfold Placed.parameterSets
  generalize m.parameterAnnotations = as, n.parameterAnnotations = bs at related
  generalize 0 = k
  induction related generalizing k with
  | nil => exact .nil
  | cons head _ ih =>
    rw [List.zipIdx_cons, List.zipIdx_cons, List.map_cons, List.map_cons]
    exact .cons ⟨rfl, head⟩ (ih (k + 1))

theorem sets (h : SameForm p x y) : List.Forall₂ (SameOwned p) x.sets y.sets := by
  unfold Placed.sets
  rw [h.position]
  have own : List.Forall₂ (SameOwned p) [(SetOwner.type y.position, x.type.annotations)]
      [(SetOwner.type y.position, y.type.annotations)] := .cons ⟨rfl, h.annotations⟩ .nil
  have fields : List.Forall₂ (SameOwned p)
      (x.members.fields.map fun e => (SetOwner.field y.position e.1, e.2.annotations))
      (y.members.fields.map fun e => (SetOwner.field y.position e.1, e.2.annotations)) := by
    refine List.rel_map ?_ h.fields
    rintro ⟨i, f⟩ ⟨j, g⟩ ⟨rfl, _, same⟩
    exact ⟨rfl, same⟩
  have methods : List.Forall₂ (SameOwned p)
      (x.members.methods.map fun e => (SetOwner.method y.position e.1, e.2.annotations))
      (y.members.methods.map fun e => (SetOwner.method y.position e.1, e.2.annotations)) := by
    refine List.rel_map ?_ h.methods
    rintro ⟨i, m⟩ ⟨j, n⟩ ⟨rfl, _, _, same, _⟩
    exact ⟨rfl, same⟩
  have parameters : List.Forall₂ (SameOwned p)
      (x.members.methods.flatMap fun e => Placed.parameterSets y.position e.1 e.2)
      (y.members.methods.flatMap fun e => Placed.parameterSets y.position e.1 e.2) := by
    refine List.rel_flatMap h.methods ?_
    rintro ⟨i, m⟩ ⟨j, n⟩ ⟨rfl, _, _, _, same⟩
    exact parameterSets same
  refine List.rel_filter ?_ (List.rel_append (List.rel_append (List.rel_append own fields) methods)
    parameters)
  rintro ⟨o, as⟩ ⟨o', bs⟩ ⟨_, same⟩
  simp only [same.isEmpty_eq]

/-- The lists of their parameters are the same, with the same offsets. -/
theorem parameterLists (h : SameForm p x y) (offsets : Std.HashMap SetOwner Nat) :
    x.members.methods.filterMap (AnnotationLayout.parameterList? offsets x.position)
      = y.members.methods.filterMap (AnnotationLayout.parameterList? offsets y.position) := by
  rw [h.position]
  refine filterMap_eq_of_forall₂ h.methods ?_
  rintro ⟨i, m⟩ ⟨j, n⟩ ⟨rfl, _, _, _, same⟩
  have length := same.length_eq
  have empty : m.parameterAnnotations.isEmpty = n.parameterAnnotations.isEmpty := by
    rw [Bool.eq_iff_iff, List.isEmpty_iff_length_eq_zero, List.isEmpty_iff_length_eq_zero, length]
  simp only [AnnotationLayout.parameterList?, empty, length]

/-- The entries of a directory depend on the indices alone. -/
theorem directoryEntries_congr {α : Type} {R : Nat × α → Nat × α → Prop}
    (index : ∀ a b, R a b → a.1 = b.1) {as bs : List (Nat × α)} (related : List.Forall₂ R as bs)
    (find? : Nat → Option Nat) :
    AnnotationLayout.directoryEntries as find? = AnnotationLayout.directoryEntries bs find? := by
  unfold AnnotationLayout.directoryEntries
  refine congrArg _ (filterMap_eq_of_forall₂ related ?_)
  rintro ⟨i, a⟩ ⟨j, b⟩ same
  obtain rfl : i = j := index _ _ same
  rfl

theorem directory (h : SameForm p x y) (sets : Std.HashMap SetOwner Nat)
    (lists : Std.HashMap (Nat × Nat) Nat) :
    AnnotationLayout.directory? sets lists x = AnnotationLayout.directory? sets lists y := by
  have fields (find? : Nat → Option Nat) := directoryEntries_congr (fun _ _ => SameField.index)
    h.fields find?
  have methods (find? : Nat → Option Nat) := directoryEntries_congr (fun _ _ => SameMethod.index)
    h.methods find?
  simp only [AnnotationLayout.directory?, h.position, fields, methods]

/-! ## Members -/

theorem bodies_related (h : SameForm p x y) :
    List.Forall₂ (fun a b : Nat × Method × Body => a.1 = b.1 ∧ a.2.2 = b.2.2)
      (x.members.methods.filterMap fun (i, m) => m.body.map fun b => (i, m, b))
      (y.members.methods.filterMap fun (i, m) => m.body.map fun b => (i, m, b)) := by
  refine List.rel_filterMap ?_ h.methods
  rintro ⟨i, m⟩ ⟨j, n⟩ ⟨rfl, _, body, _, _⟩
  have body : m.body = n.body := body
  dsimp only
  rw [body]
  cases n.body with
  | none => exact .none
  | some b => exact .some ⟨rfl, rfl⟩

/-- Members of the same form are written alike. -/
theorem encodeMembers_congr {α : Type} {R : Nat × α → Nat × α → Prop} {form : Nat → α → List UInt8}
    (index : ∀ a b, R a b → a.1 = b.1) (forms : ∀ a b, R a b → form a.1 a.2 = form b.1 b.2)
    {as bs : List (Nat × α)} (related : List.Forall₂ R as bs) :
    encodeMembers form as = encodeMembers form bs := by
  unfold encodeMembers
  generalize 0 = previous
  induction related generalizing previous with
  | nil => rfl
  | @cons a b as bs head _ ih =>
    obtain ⟨i, a⟩ := a
    obtain ⟨j, b⟩ := b
    obtain rfl : i = j := index _ _ head
    have same : form i a = form i b := forms _ _ head
    rw [List.map_cons, List.map_cons, List.zip_cons_cons, List.zip_cons_cons, List.flatMap_cons,
      List.flatMap_cons, ih]
    show uleb (i - previous) ++ form i a ++ _ = uleb (i - previous) ++ form i b ++ _
    rw [same]

/-- The data of classes of the same form is the same. -/
theorem classData (h : SameForm p x y) (code : Std.HashMap Nat Nat) :
    encodeClassData? code x.members = encodeClassData? code y.members := by
  have field : ∀ a b, SameField p a b → encodeField a.1 a.2 = encodeField b.1 b.2 := by
    intro a b same
    rw [encodeField, encodeField, same.flags]
  have method : ∀ a b, SameMethod p a b → encodeMethod code a.1 a.2 = encodeMethod code b.1 b.2 := by
    intro a b same
    rw [encodeMethod, encodeMethod, same.flags, same.index]
  have empty : x.members.isEmpty = y.members.isEmpty := by
    unfold Members.isEmpty
    rw [Bool.eq_iff_iff, Bool.and_eq_true, Bool.and_eq_true, List.isEmpty_iff_length_eq_zero,
      List.isEmpty_iff_length_eq_zero, List.isEmpty_iff_length_eq_zero,
      List.isEmpty_iff_length_eq_zero, h.fields.length_eq, h.methods.length_eq]
  unfold encodeClassData?
  rw [empty, h.statics.length_eq, h.instances.length_eq, h.directs.length_eq, h.virtuals.length_eq,
    encodeMembers_congr (fun _ _ => SameField.index) field h.statics,
    encodeMembers_congr (fun _ _ => SameField.index) field h.instances,
    encodeMembers_congr (fun _ _ => SameMethod.index) method h.directs,
    encodeMembers_congr (fun _ _ => SameMethod.index) method h.virtuals]

end SameForm

/-! ## Layouts -/

section Layouts

variable {p : Pool} {xs ys : List Placed}

/-- Groups of the same sizes get the same offsets. -/
theorem offsetsByGroup_congr {α : Type} {as bs : List (List α)}
    (lengths : as.map List.length = bs.map List.length) (offsets : List Nat) :
    offsetsByGroup as offsets = offsetsByGroup bs offsets := by
  induction as generalizing bs offsets with
  | nil =>
    cases bs with
    | nil => rfl
    | cons b bs => cases lengths
  | cons a as ih =>
    cases bs with
    | nil => cases lengths
    | cons b bs =>
      rw [List.map_cons, List.map_cons, List.cons.injEq] at lengths
      rw [offsetsByGroup, offsetsByGroup, lengths.1, ih lengths.2]

/-- Sets of the same form are made of the same items. -/
theorem annotationItems_congr {ss ts : List (SetOwner × List Annotation)}
    (owned : List.Forall₂ (SameForm.SameOwned p) ss ts) :
    (ss.map fun (_, as) => orderedSet p as).flatten.map (encodeAnnotationItem p)
      = (ts.map fun (_, as) => orderedSet p as).flatten.map (encodeAnnotationItem p) := by
  rw [List.map_flatten, List.map_flatten, List.map_map, List.map_map]
  exact congrArg List.flatten (map_eq_of_forall₂ owned fun _ _ => And.right)

/-- They have the same lengths. -/
theorem setLengths_congr {ss ts : List (SetOwner × List Annotation)}
    (owned : List.Forall₂ (SameForm.SameOwned p) ss ts) :
    (ss.map fun (_, as) => orderedSet p as).map List.length
      = (ts.map fun (_, as) => orderedSet p as).map List.length := by
  rw [List.map_map, List.map_map]
  exact map_eq_of_forall₂ owned fun _ _ h => h.2.length_eq

/-- Annotations of the same form are placed alike. -/
theorem AnnotationLayout.ofClasses_congr (same : List.Forall₂ (SameForm p) xs ys) (start : Nat) :
    AnnotationLayout.ofClasses p start xs = AnnotationLayout.ofClasses p start ys := by
  have owned : List.Forall₂ (SameForm.SameOwned p) (xs.flatMap Placed.sets)
      (ys.flatMap Placed.sets) := List.rel_flatMap same fun _ _ => SameForm.sets
  have owners : (xs.flatMap Placed.sets).map Prod.fst = (ys.flatMap Placed.sets).map Prod.fst :=
    map_eq_of_forall₂ owned fun _ _ => And.left
  have groups := offsetsByGroup_congr (setLengths_congr owned)
  have lists (offsets : Std.HashMap SetOwner Nat) :
      (xs.flatMap fun c => c.members.methods.filterMap (parameterList? offsets c.position))
        = ys.flatMap fun c => c.members.methods.filterMap (parameterList? offsets c.position) :=
    flatMap_eq_of_forall₂ same fun _ _ h => h.parameterLists offsets
  have directories (sets : Std.HashMap SetOwner Nat) (lists : Std.HashMap (Nat × Nat) Nat) :
      xs.map (directory? sets lists) = ys.map (directory? sets lists) :=
    map_eq_of_forall₂ same fun _ _ h => h.directory sets lists
  simp only [AnnotationLayout.ofClasses, annotationItems_congr owned, owners, groups, lists,
    directories]

theorem bodies_related (same : List.Forall₂ (SameForm p) xs ys) :
    List.Forall₂ (fun a b : Nat × Method × Body => a.1 = b.1 ∧ a.2.2 = b.2.2) (bodies xs)
      (bodies ys) :=
  List.rel_flatMap same fun _ _ => SameForm.bodies_related

/-- The bodies of classes of the same form are written alike. -/
theorem encodedBodies_congr (same : List.Forall₂ (SameForm p) xs ys) :
    ((bodies xs).map fun (_, _, b) => encodeBody b)
      = (bodies ys).map fun (_, _, b) => encodeBody b :=
  map_eq_of_forall₂ (bodies_related same) fun _ _ h => congrArg encodeBody h.2

/-- Classes of the same form are placed alike. -/
theorem Layout.ofClasses_congr {classes classes' : List ClassDecl}
    (same : List.Forall₂ (SameForm p) xs ys)
    (interfaces : classes.map ClassDecl.interfaces = classes'.map ClassDecl.interfaces) :
    Layout.ofClasses p classes xs (bodies xs) = Layout.ofClasses p classes' ys (bodies ys) := by
  have count : classes.length = classes'.length := by
    have lengths := congrArg List.length interfaces
    rwa [List.length_map, List.length_map] at lengths
  have lists : Container.typeLists p classes = Container.typeLists p classes' := by
    rw [Container.typeLists, Container.typeLists, interfaces]
  have arrays : (xs.map fun c =>
        let values := c.members.initialValues
        if values.isEmpty then none else some (encodeArray p values))
      = ys.map fun c =>
        let values := c.members.initialValues
        if values.isEmpty then none else some (encodeArray p values) := by
    refine map_eq_of_forall₂ same fun x y h => ?_
    have lengths := congrArg List.length h.values
    rw [encodeValues_eq, encodeValues_eq, List.length_map, List.length_map] at lengths
    have empty : x.members.initialValues.isEmpty = y.members.initialValues.isEmpty := by
      rw [Bool.eq_iff_iff, List.isEmpty_iff_length_eq_zero, List.isEmpty_iff_length_eq_zero, lengths]
    simp only [encodeArray, empty, h.values]
  have indices : (bodies xs).map Prod.fst = (bodies ys).map Prod.fst :=
    map_eq_of_forall₂ (bodies_related same) fun _ _ => And.left
  have classData (code : Std.HashMap Nat Nat) :
      (xs.map fun c => encodeClassData? code c.members)
        = ys.map fun c => encodeClassData? code c.members :=
    map_eq_of_forall₂ same fun _ _ h => h.classData code
  simp only [Layout.ofClasses, count, lists, arrays, AnnotationLayout.ofClasses_congr same, indices,
    encodedBodies_congr same, classData]

end Layouts

end StubJar.Container
