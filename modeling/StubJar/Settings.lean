import StubJar.ClassFile.Basic
import StubJar.Path
import StubJar.Text.Numeral

/-!
# What a run is asked to do

Arguments are read from left to right. An option takes its value from the
same argument or from the next one, which must not look like an option; it
may be given once. Behind `--` every argument is a path. The first argument
that does not fit is the fault, unless help was asked for before it.
-/

namespace StubJar

open StubJar.ClassFile

/-- The input and outputs of a run, and the version of the class files. -/
structure Settings where
  input : String
  output : Option String
  writeContainer : Bool
  version : Version
deriving DecidableEq, Repr

namespace Settings

/-- The settings of a run on an input about which nothing else is said. -/
def ofInput (input : String) : Settings := ⟨input, none, false, Version.default⟩

/-- Where the archive is written. -/
def archivePath (s : Settings) : String := s.output.getD (Path.output s.input "jar")

/-- Where the container is written. -/
def containerPath (s : Settings) : String := Path.output s.input "stub.dex"

end Settings

/-- What the arguments ask for. -/
inductive Request where
  /-- A text about the program. -/
  | information
  /-- A run. -/
  | run (s : Settings)
  /-- Nothing that the program does. -/
  | unusable
deriving DecidableEq, Repr

/-- The arguments read so far. -/
structure Arguments where
  input : Option String
  output : Option String
  writeContainer : Bool
  version : Option Version

namespace Arguments

/-- Before any argument. -/
def start : Arguments := ⟨none, none, false, none⟩

/-- Adds the path of the input. -/
def addInput? (a : Arguments) (path : String) : Option Arguments :=
  if a.input.isSome || path.isEmpty then none else some { a with input := some path }

/-- Adds the path of the archive. -/
def addOutput? (a : Arguments) (path : String) : Option Arguments :=
  if a.output.isSome || path.isEmpty then none else some { a with output := some path }

/-- The version of class files that a text names. -/
def version? (text : String) : Option Version :=
  match Text.integer? text.toList with
  | some n => if 49 ≤ n && n ≤ 65 then some ⟨UInt16.ofInt n⟩ else none
  | none => .none

/-- Adds the version of the class files. -/
def addVersion? (a : Arguments) (text : String) : Option Arguments :=
  if a.version.isSome then none
  else (version? text).map fun v => { a with version := some v }

/-- Adds the wish for the container. -/
def addContainer? (a : Arguments) : Option Arguments :=
  if a.writeContainer then none else some { a with writeContainer := true }

/-- What the arguments ask for when there are no more of them. -/
def request (a : Arguments) : Request :=
  match a.input with
  | some input => .run ⟨input, a.output, a.writeContainer, a.version.getD Version.default⟩
  | none => .unusable

end Arguments

/-- What a single argument says. -/
inductive Argument where
  | information
  | container
  /-- An option with its value. -/
  | valued (add? : Arguments → String → Option Arguments) (value : String)
  /-- An option whose value is the next argument. -/
  | awaiting (add? : Arguments → String → Option Arguments)
  /-- All further arguments are paths. -/
  | pathsFollow
  | path (path : String)
  | unknown

namespace Argument

/-- An option by its long name, with the value behind `=` if there is one. -/
def ofLong (name : List Char) (value : Option String) : Argument :=
  match String.ofList name, value with
  | "help", none | "version", none => information
  | "dex", none => container
  | "output", some v => valued Arguments.addOutput? v
  | "output", none => awaiting Arguments.addOutput?
  | "class-version", some v => valued Arguments.addVersion? v
  | "class-version", none => awaiting Arguments.addVersion?
  | _, _ => unknown

/-- What an argument says by its form. -/
def ofText (text : String) : Argument :=
  match text.toList with
  | ['-', '-'] => pathsFollow
  | '-' :: '-' :: option =>
    let name := option.takeWhile (· != '=')
    match option.dropWhile (· != '=') with
    | _ :: value => ofLong name (some (String.ofList value))
    | [] => ofLong name none
  | '-' :: 'h' :: _ => information
  | '-' :: 'V' :: _ => information
  | ['-', 'o'] => awaiting Arguments.addOutput?
  | '-' :: 'o' :: '=' :: value => valued Arguments.addOutput? (String.ofList value)
  | '-' :: 'o' :: value => valued Arguments.addOutput? (String.ofList value)
  | '-' :: _ :: _ => unknown
  | _ => path text

end Argument

/-- Whether an argument has the form of an option. -/
def looksLikeOption (text : String) : Bool :=
  match text.toList with
  | '-' :: _ :: _ => true
  | _ => false

/-- What paths behind the arguments read so far ask for. -/
def requestOfPaths (a : Arguments) : List String → Request
  | [] => a.request
  | path :: rest =>
    match a.addInput? path with
    | some a => requestOfPaths a rest
    | none => .unusable

/-- What further arguments behind those read so far ask for. -/
def requestFrom (a : Arguments) : List String → Request
  | [] => a.request
  | text :: rest =>
    match Argument.ofText text with
    | .information => .information
    | .unknown => .unusable
    | .pathsFollow => requestOfPaths a rest
    | .container =>
      match a.addContainer? with
      | some a => requestFrom a rest
      | none => .unusable
    | .path path =>
      match a.addInput? path with
      | some a => requestFrom a rest
      | none => .unusable
    | .valued add? value =>
      match add? a value with
      | some a => requestFrom a rest
      | none => .unusable
    | .awaiting add? =>
      match rest with
      | [] => .unusable
      | value :: rest =>
        if looksLikeOption value then .unusable
        else match add? a value with
          | some a => requestFrom a rest
          | none => .unusable

/-- What the arguments of the program ask for. -/
def Request.ofArguments (texts : List String) : Request := requestFrom Arguments.start texts

end StubJar
