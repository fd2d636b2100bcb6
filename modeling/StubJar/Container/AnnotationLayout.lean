import Std.Data.HashMap
import StubJar.Container.Layout
import StubJar.Container.Members
import StubJar.Container.ValueForm

/-!
# Placing annotations

Annotations take four runs: the annotations themselves, the sets they form,
the lists of sets for parameters, and a directory for each class that has
any. A set is found again through its owner; where a class lists a member
twice, the later set stands for both.
-/

namespace StubJar.Container

open StubJar.Bytes StubJar.Dalvik StubJar.Order

/-- What a set of annotations is attached to. Members go by the position of
their class and their index. -/
inductive SetOwner where
  | type (c : Nat)
  | field (c i : Nat)
  | method (c i : Nat)
  | parameter (c i : Nat) (position : Nat)
deriving DecidableEq, Hashable, Repr

/-- A class at its position in the file, with its members in order. -/
structure Placed where
  position : Nat
  type : ClassDecl
  members : Members

namespace Placed

/-- The sets of the parameters of a method. -/
def parameterSets (c i : Nat) (m : Method) : List (SetOwner × List Annotation) :=
  m.parameterAnnotations.zipIdx.map fun (annotations, k) => (.parameter c i k, annotations)

/-- The sets of a class that are not empty: its own, then those of its
fields, of its methods, of their parameters. -/
def sets (c : Placed) : List (SetOwner × List Annotation) :=
  let n := c.position
  let own := [(SetOwner.type n, c.type.annotations)]
  let fields := c.members.fields.map fun (i, f) => (SetOwner.field n i, f.annotations)
  let methods := c.members.methods.map fun (i, m) => (SetOwner.method n i, m.annotations)
  let parameters := c.members.methods.flatMap fun (i, m) => parameterSets n i m
  (own ++ fields ++ methods ++ parameters).filter (!·.2.isEmpty)

end Placed

/-- The annotations of a set in ascending order of the indices of their
types. -/
def orderedSet (p : Pool) (annotations : List Annotation) : List Annotation :=
  sortOn (fun a => [p.type a.type]) annotations

/-- Takes the offsets of the items of several groups apart. -/
def offsetsByGroup {α : Type} : List (List α) → List Nat → List (List Nat)
  | [], _ => []
  | group :: groups, offsets =>
    offsets.take group.length :: offsetsByGroup groups (offsets.drop group.length)

/-- A list of offsets behind their number. -/
def offsetList (offsets : List Nat) : List UInt8 := le 4 offsets.length ++ offsets.flatMap (le 4)

/-- The four runs, and the offset of the directory of each class. -/
structure AnnotationLayout where
  items : Run
  sets : Run
  lists : Run
  directories : Run
  directoryOffsets : Array Nat

namespace AnnotationLayout

/-- The list of sets of the parameters of a method, if it has any. -/
def parameterList? (setOffsets : Std.HashMap SetOwner Nat) (c : Nat) :
    Nat × Method → Option ((Nat × Nat) × List UInt8)
  | (i, m) =>
    if m.parameterAnnotations.isEmpty then none
    else
      let positions := List.range m.parameterAnnotations.length
      some ((c, i), offsetList (positions.map fun k => setOffsets.getD (.parameter c i k) 0))

/-- The members of a directory of one kind, each with the offset of its
annotations, in ascending order. -/
def directoryEntries {α : Type} (members : List (Nat × α)) (find? : Nat → Option Nat) :
    List (Nat × Nat) :=
  sortOn (fun (i, offset) => [i, offset])
    (members.filterMap fun (i, _) => (find? i).map fun offset => (i, offset))

/-- The directory of a class, if it has any annotations. -/
def directory? (setOffsets : Std.HashMap SetOwner Nat) (listOffsets : Std.HashMap (Nat × Nat) Nat)
    (c : Placed) : Option (List UInt8) :=
  let n := c.position
  let own := setOffsets[SetOwner.type n]?
  let fields := directoryEntries c.members.fields fun i => setOffsets[SetOwner.field n i]?
  let methods := directoryEntries c.members.methods fun i => setOffsets[SetOwner.method n i]?
  let parameters := directoryEntries c.members.methods fun i => listOffsets[(n, i)]?
  if own.isNone && fields.isEmpty && methods.isEmpty && parameters.isEmpty then none
  else some (le 4 (own.getD 0) ++ le 4 fields.length ++ le 4 methods.length
    ++ le 4 parameters.length
    ++ (fields ++ methods ++ parameters).flatMap fun (i, offset) => le 4 i ++ le 4 offset)

/-- Places the annotations of all classes from `start` on. -/
def ofClasses (p : Pool) (start : Nat) (classes : List Placed) : AnnotationLayout :=
  let owned := classes.flatMap Placed.sets
  let groups := owned.map fun (_, annotations) => orderedSet p annotations
  let items := Run.ofItems .annotationItem start (groups.flatten.map (encodeAnnotationItem p))
  let sets := Run.ofItems .annotationSet items.stop
    ((offsetsByGroup groups items.offsets.toList).map offsetList)
  let setOffsets := Std.HashMap.ofList ((owned.map Prod.fst).zip sets.offsets.toList)
  let parameterLists := classes.flatMap fun c =>
    c.members.methods.filterMap (parameterList? setOffsets c.position)
  let lists := Run.ofItems .annotationSetRefList sets.stop (parameterLists.map Prod.snd)
  let listOffsets := Std.HashMap.ofList ((parameterLists.map Prod.fst).zip lists.offsets.toList)
  let (directories, directoryOffsets) := Run.ofOptional .annotationsDirectory lists.stop
    (classes.map (directory? setOffsets listOffsets))
  ⟨items, sets, lists, directories, directoryOffsets⟩

/-- The four runs in the order in which they stand. -/
def runs (a : AnnotationLayout) : List Run := [a.items, a.sets, a.lists, a.directories]

end AnnotationLayout

end StubJar.Container
