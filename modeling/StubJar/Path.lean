/-!
# Paths

A path is segments between slashes. Empty segments and single dots name
nothing, except that a dot at the very beginning of a relative path is kept.
The last segment names a file unless it leads upwards; without the extension
behind its last dot, it is the stem from which the names of outputs are made.
-/

namespace StubJar.Path

/-- The segments between the slashes of a path. -/
def segments (path : String) : List (List Char) :=
  path.toList.foldr
    (fun c found =>
      match c, found with
      | '/', found => [] :: found
      | c, s :: found => (c :: s) :: found
      | c, [] => [[c]])
    [[]]

/-- A segment that names nothing. -/
def isIdle (segment : List Char) : Bool := segment == [] || segment == ['.']

/-- The segments without those at the end that name nothing; the first
segment stays. -/
def trimmed (segments : List (List Char)) : List (List Char) :=
  match segments with
  | [] => []
  | first :: rest => first :: (rest.reverse.dropWhile isIdle).reverse

/-- The segment that names the file, if there is one. -/
def fileName? (path : String) : Option (List Char) :=
  match (trimmed (segments path)).getLast? with
  | some name => if isIdle name || name == ['.', '.'] then none else some name
  | none => none

/-- The name of a file without its extension. A dot in front of everything
else starts no extension. -/
def stem (name : List Char) : List Char :=
  match name.reverse.dropWhile (· != '.') with
  | _ :: before => if before.isEmpty then name else before.reverse
  | [] => name

/-- The path without the segment that names the file. -/
def parent (path : String) : List Char :=
  match trimmed (trimmed (segments path)).dropLast with
  | [] => []
  | [[]] => ['/']
  | segments => ['/'].intercalate segments

/-- A path for another file in a directory. -/
def join (directory name : List Char) : List Char :=
  match directory.getLast? with
  | none => name
  | some '/' => directory ++ name
  | some _ => directory ++ '/' :: name

/-- The path with the segment that names the file replaced; where there is
none, the name is added. -/
def withFileName (path : String) (name : List Char) : String :=
  match fileName? path with
  | some _ => String.ofList (join (parent path) name)
  | none => String.ofList (join path.toList name)

/-- The stem of an output whose input names no file. -/
def defaultStem : List Char := "out".toList

/-- The path beside an input with the same stem and another extension. -/
def output (input extension : String) : String :=
  let stem := ((fileName? input).map stem).getD defaultStem
  withFileName input (stem ++ '.' :: extension.toList)

end StubJar.Path
