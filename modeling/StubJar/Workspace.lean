import Std.Data.TreeMap.Basic
import StubJar.Session

/-!
# Runs on a tree of files

A workspace is a directory with files in it, as the program sees it when it
runs there. A directory exists where a file stands below it. Paths are
relative to the workspace; a path that leads out of it finds nothing.
-/

namespace StubJar

/-- Files by their paths, the segments of which stand between slashes. -/
structure Workspace where
  files : Std.TreeMap String Artifact

namespace Workspace

/-- The path of a place in the workspace. -/
def place (segments : List String) : String := String.intercalate "/" segments

/-- The workspace with the given files and the directories they need. -/
def ofFiles (files : List (String × List UInt8)) : Workspace :=
  ⟨files.foldl
    (fun found (path, bytes) =>
      let named := (Path.segments path).filter (!Path.isIdle ·)
      found.insert (place (named.map String.ofList)) (.plain bytes))
    ∅⟩

/-- Whether a directory exists. -/
def isDirectory (w : Workspace) (segments : List String) : Bool :=
  segments.isEmpty || w.files.keys.any (·.startsWith (place segments ++ "/"))

/-- Follows segments from a directory; each step must start from an existing
one, and no step leads out of the workspace. -/
def follow? (w : Workspace) : (here segments : List String) → Option (List String)
  | here, [] => some here
  | here, segment :: rest =>
    if !w.isDirectory here then none
    else if segment == "" || segment == "." then w.follow? here rest
    else if segment == ".." then
      if here.isEmpty then none else w.follow? here.dropLast rest
    else w.follow? (here ++ [segment]) rest

/-- The place that a path leads to, if it can be that of a file. -/
def locate? (w : Workspace) (path : String) : Option String := do
  guard (!path.isEmpty && !path.startsWith "/")
  let found ← w.follow? [] ((Path.segments path).map String.ofList)
  guard (!w.isDirectory found)
  return place found

/-- The bytes of a file. -/
def read? (w : Workspace) (path : String) : Option (List UInt8) := do
  let found ← w.locate? path
  return (← w.files[found]?).bytes

/-- Writes a file, which may be new; its directory must exist. -/
def write? (w : Workspace) (path : String) (a : Artifact) : Option Workspace := do
  return ⟨w.files.insert (← w.locate? path) a⟩

/-- Writes files one after another until one cannot be written; what was
written before stays. -/
def writeAll (w : Workspace) : List (String × Artifact) → Ending × Workspace
  | [] => (.success, w)
  | (path, a) :: rest =>
    match w.write? path a with
    | some w => w.writeAll rest
    | none => (.failure, w)

/-- A run of the program in the workspace. -/
def run (w : Workspace) (arguments : List String) : Ending × Workspace :=
  match Request.ofArguments arguments with
  | .information => (.success, w)
  | .unusable => (.misuse, w)
  | .run s =>
    match w.read? s.input with
    | none => (.failure, w)
    | some input =>
      match s.run input with
      | .ok artifacts => w.writeAll artifacts
      | .error _ => (.failure, w)

/-- The files that are new in a workspace, or differ from what they were, in
the order of their paths. -/
def changedSince (before after : Workspace) : List (String × Artifact) :=
  after.files.toList.filter fun (path, a) =>
    match before.files[path]? with
    | some old => old.bytes != a.bytes
    | none => true

end Workspace

end StubJar
