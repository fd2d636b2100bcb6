import StubJar.Container.Encoder
import StubJar.Stub.Substitution
import StubJar.Translation.Archive

/-!
# From a container to its stubs

A container is read, all of its bodies are replaced by stubs, and the result
is written as a container again. The archive is made from the bytes of that
container, so it holds what a reader of the container would find. A failure
at any step leaves no output.
-/

namespace StubJar

open StubJar.Dalvik StubJar.ClassFile StubJar.Jar

/-- Why there is no output. -/
inductive Fault where
  | undecodable (cause : Container.DecodeFault)
  | unstubbable (cause : Stub.Fault)
  | unencodable (cause : Container.EncodeFault)
  | unconvertible (cause : Translation.Fault)
deriving DecidableEq, Repr

namespace Fault

/-- The wording of a fault. -/
def message : Fault → String
  | undecodable cause => s!"failed to decode container: {cause.message}"
  | unstubbable cause => cause.message
  | unencodable cause => s!"failed to encode container: {cause.message}"
  | unconvertible cause => s!"failed to convert container: {cause.message}"

/-- The wording of what the fault wraps, from the outside in. -/
def causes : Fault → List String
  | undecodable cause => [cause.message]
  | unstubbable _ => []
  | unencodable cause => [cause.message]
  | unconvertible cause => cause.message :: cause.causes

end Fault

/-- What a run makes: a container with stubs, and the archive of its
classes. -/
structure Output where
  container : List UInt8
  archive : Archive

namespace Output

/-- Whether two outputs have the same container and the same entries. -/
def same (a b : Output) : Bool :=
  a.container == b.container && a.archive.entries == b.archive.entries

/-- The output for the contents of a container. -/
def ofFile (version : Version) (f : File) : Except Fault Output := do
  let stubbed ← f.stubbed.mapError .unstubbable
  let container ← (Container.encode stubbed).mapError .unencodable
  let archive ← (Translation.archiveOfContainer version container).mapError .unconvertible
  return ⟨container, archive⟩

/-- The output for a container. -/
def ofContainer (version : Version) (bytes : List UInt8) : Except Fault Output := do
  ofFile version (← (Container.decode bytes).mapError .undecodable)

/-- Whether a run on the container of an output makes the same output. -/
def isFixedPoint (o : Output) (version : Version) : Bool :=
  match ofContainer version o.container with
  | .ok again => again.same o
  | .error _ => false

end Output

end StubJar
