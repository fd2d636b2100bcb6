import Std.Data.TreeMap.Basic
import StubJar.Text.Utf8

/-!
# Archives

An archive holds data under distinct paths. It always has a manifest, which
comes first, and all else follows in the order of the paths, so that the same
classes always make the same archive.
-/

namespace StubJar.Jar

/-- How the data of an entry is packed. -/
inductive Packing where
  | stored
  | deflated
deriving DecidableEq, Repr

/-- A path, and what the archive holds under it. -/
structure Entry where
  path : String
  packing : Packing
  data : List UInt8
deriving DecidableEq, Repr

/-- The path of the manifest. -/
def manifestPath : String := "META-INF/MANIFEST.MF"

/-- The manifest: who made the archive. -/
def manifest : String := "Manifest-Version: 1.0\r\nCreated-By: dexstub 0.1.0\r\n\r\n"

/-- Data by path, the manifest apart. -/
structure Archive where
  added : Std.TreeMap String (List UInt8)

namespace Archive

/-- The archive with nothing but its manifest. -/
def empty : Archive := ⟨∅⟩

/-- How many entries were added. -/
def size (a : Archive) : Nat := a.added.size

/-- Whether no entry was added. -/
def isEmpty (a : Archive) : Bool := a.added.isEmpty

/-- Whether the archive has an entry of some path. -/
def isTaken (a : Archive) (path : String) : Bool := path == manifestPath || a.added.contains path

/-- Adds data under a path that is not taken. -/
def add? (a : Archive) (path : String) (data : List UInt8) : Option Archive :=
  if a.isTaken path then none else some ⟨a.added.insert path data⟩

/-- The entries, the manifest first and the others by path. -/
def entries (a : Archive) : List Entry :=
  ⟨manifestPath, .deflated, Text.utf8 manifest⟩
    :: a.added.toList.map fun (path, data) => ⟨path, .deflated, data⟩

end Archive

end StubJar.Jar
