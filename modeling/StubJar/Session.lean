import StubJar.Jar.Zip
import StubJar.Output
import StubJar.Settings

/-!
# What a run writes

A run reads one file and writes one or two. Nothing is written unless every
step has succeeded; the container, where it is wanted, is written before the
archive.
-/

namespace StubJar

/-- The contents of a file. -/
inductive Artifact where
  | plain (bytes : List UInt8)
  | archive (a : Jar.Archive)

/-- The bytes of a file. -/
def Artifact.bytes : Artifact → List UInt8
  | plain bytes => bytes
  | archive a => Jar.encode a

/-- The files that a run writes, in order. -/
def Settings.artifacts (s : Settings) (output : Output) : List (String × Artifact) :=
  (if s.writeContainer then [(s.containerPath, .plain output.container)] else [])
    ++ [(s.archivePath, .archive output.archive)]

/-- The files that a run on some input writes, in order. -/
def Settings.run (s : Settings) (input : List UInt8) :
    Except Fault (List (String × Artifact)) := do
  return s.artifacts (← Output.ofContainer s.version input)

/-- How the program ends. -/
inductive Ending where
  | success
  /-- A file could not be read or written, or a step failed. -/
  | failure
  /-- The arguments ask for nothing that the program does. -/
  | misuse
deriving DecidableEq, Repr

/-- The number that tells how the program ended. -/
def Ending.code : Ending → Nat
  | success => 0
  | failure => 1
  | misuse => 2

end StubJar
