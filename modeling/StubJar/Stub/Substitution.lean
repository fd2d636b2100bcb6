import StubJar.Stub.Plan

/-!
# Replacing bodies by stubs

Every method that is neither abstract nor native gets the stub of its return
type and loses its annotations; everything else stays as it is. Stubs are
made in the order of classes and methods, and the first method that can have
none is the fault.
-/

namespace StubJar.Stub

open StubJar.Dalvik

/-- Why a method has no stub. -/
inductive Fault where
  | unsupportedReturnType (owner name returnType : String)
  | tooManyParameters (method : String) (registers : Nat)
  | unencodable (method : String) (reason : InstructionFault)
deriving DecidableEq, Repr

/-- What is said about a return type without a shape where no method is
known. -/
def unsupportedReturnTypeMessage (returnType : String) : String :=
  s!"unsupported return type '{returnType}'"

/-- The wording of a fault. -/
def Fault.message : Fault → String
  | unsupportedReturnType owner name returnType =>
    s!"method {name} in {owner} has unsupported return type '{returnType}'"
  | tooManyParameters method registers => s!"method {method} needs {registers} parameter registers"
  | unencodable method reason => s!"cannot encode stub for {method}: {reason.message}"

/-- The most registers the arguments of a method may take. -/
def maxArgumentWidth : Nat := 255

/-- The body of the stub of a method. -/
def stubBody (m : Method) : Except Fault Body :=
  let returnType := m.ref.prototype.result
  match Shape.ofReturnType? returnType with
  | none => .error (.unsupportedReturnType m.ref.owner.text m.ref.name returnType.text)
  | some shape =>
    let parameters := m.ref.prototype.parameterWidth
    if maxArgumentWidth < m.ins then .error (.tooManyParameters m.ref.render parameters)
    else match (Draft.ofShape shape m.isStatic parameters).body with
      | .ok body => .ok body
      | .error reason => .error (.unencodable m.ref.render reason)

end StubJar.Stub

namespace StubJar.Dalvik

/-- The method with the stub in place of its body. -/
def Method.stubbed (m : Method) : Except Stub.Fault Method :=
  if m.flags.isBodiless then .ok m
  else do return ⟨m.ref, m.flags, [], [], some (← Stub.stubBody m)⟩

/-- The class with stubs in place of all bodies. -/
def ClassDecl.stubbed (c : ClassDecl) : Except Stub.Fault ClassDecl := do
  return { c with methods := ← c.methods.mapM Method.stubbed }

/-- The file with stubs in place of all bodies. -/
def File.stubbed (f : File) : Except Stub.Fault File := do
  return { f with classes := ← f.classes.mapM ClassDecl.stubbed }

end StubJar.Dalvik
