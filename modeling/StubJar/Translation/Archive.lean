import StubJar.Container.ClassTable
import StubJar.Jar.Archive
import StubJar.Translation.Class

/-!
# From a container to an archive

Every class of a container becomes an entry of an archive, under the name of
the class. No two classes may have the same name.
-/

namespace StubJar.Translation

open StubJar.Dalvik StubJar.ClassFile StubJar.Jar

/-- Adds the class file of a class to an archive. -/
def addClass (version : Version) (a : Archive) (c : ClassDecl) : Except Fault Archive := do
  let entry ← classEntry version c
  match a.add? entry.path entry.bytes with
  | some a => return a
  | none => throw (.duplicateClass entry.name)

/-- The archive of a list of classes. -/
def archiveOf (version : Version) (classes : List ClassDecl) : Except Fault Archive :=
  classes.foldlM (addClass version) Archive.empty

/-- The archive of a container. -/
def archiveOfContainer (version : Version) (bytes : List UInt8) : Except Fault Archive :=
  match Container.decode bytes with
  | .error cause => .error (.undecodable cause)
  | .ok f => archiveOf version f.classes

end StubJar.Translation
