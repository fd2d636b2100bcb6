import StubJar.ClassFile.Fault
import StubJar.Container.Fault

/-!
# Why a container becomes no archive of class files
-/

namespace StubJar.Translation

open StubJar.Dalvik

/-- What stands in the way of a translation. -/
inductive Fault where
  /-- The bytes are no container. -/
  | undecodable (cause : Container.DecodeFault)
  /-- The class of a class, a superclass or an interface is none. -/
  | notAClass (type : String)
  /-- The archive has an entry of that name. -/
  | duplicateClass (name : String)
  | unsupportedBody (method : String) (reason : InstructionFault)
  /-- The returned register holds no constant of the width that is
  returned. -/
  | uninitializedRegister (method : String) (r : Register)
  /-- The return does not fit the declared type. -/
  | returnMismatch (method returnType mnemonic : String)
  | missingReturn (method : String)
  /-- There are instructions behind the return. -/
  | unreachableInstructions (method : String)
  | missingCode (method : String)
  | classFile (cause : ClassFile.Fault)
deriving DecidableEq, Repr

namespace Fault

/-- The wording of a fault. -/
def message : Fault → String
  | undecodable cause => s!"cannot read container: {cause.message}"
  | notAClass type => s!"'{type}' is not a class type"
  | duplicateClass name => s!"class {name} is defined twice"
  | unsupportedBody method reason => s!"cannot convert body of {method}: {reason.message}"
  | uninitializedRegister method r =>
    s!"{method} returns v{r} which holds no constant of the right width"
  | returnMismatch method returnType mnemonic =>
    s!"{method} uses {mnemonic} but is declared to return {returnType}"
  | missingReturn method => s!"{method} does not end with a return"
  | unreachableInstructions method => s!"{method} has instructions after its return"
  | missingCode method => s!"{method} is neither abstract nor native but has no code"
  | classFile cause => s!"class file error: {cause.message}"

/-- The wording of what the fault wraps, if it wraps anything. -/
def causes : Fault → List String
  | undecodable cause => [cause.message]
  | unsupportedBody _ reason => [reason.message]
  | classFile cause => [cause.message]
  | _ => []

end Fault

end StubJar.Translation
