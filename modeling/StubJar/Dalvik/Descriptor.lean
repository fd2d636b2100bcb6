/-!
# Type descriptors and prototypes

A descriptor is carried exactly as it was found, well formed or not. What it
says about a value is read off on demand: its one-letter summary (`shorty`),
how many registers a value takes (`width`), and the class it names.
-/

namespace StubJar.Dalvik

/-- The text of a type, such as `I`, `[[J` or `Ljava/lang/String;`. -/
structure Descriptor where
  text : String
deriving DecidableEq, Hashable, Repr, Inhabited

namespace Descriptor

/-- The type of methods that return nothing. -/
def void : Descriptor := ⟨"V"⟩

/-- The letters that are types of their own. -/
def letters : List Char := ['V', 'Z', 'B', 'S', 'C', 'I', 'F', 'J', 'D']

/-- The letter that summarises the type: its own for `void` and the
primitives, `L` for a reference, none for anything else. -/
def shorty? (d : Descriptor) : Option Char :=
  match d.text.toList with
  | '[' :: _ => some 'L'
  | [c] => if c ∈ letters then some c else none
  | 'L' :: name => if name.getLast? = some ';' then some 'L' else none
  | _ => none

/-- Whether the type is an array. -/
def isArray (d : Descriptor) : Bool := d.text.toList.head? == some '['

/-- `long` and `double` take a pair of registers. -/
def isWide (d : Descriptor) : Bool := d.text == "J" || d.text == "D"

/-- How many registers a value takes. -/
def width (d : Descriptor) : Nat := if d.isWide then 2 else 1

/-- The class that an object type names, without `L` and `;`. -/
def className? (d : Descriptor) : Option String :=
  match d.text.toList with
  | 'L' :: name => if name.getLast? = some ';' then some (String.ofList name.dropLast) else none
  | _ => none

end Descriptor

/-- What a method takes, the receiver apart, and what it returns. -/
structure Prototype where
  result : Descriptor
  parameters : List Descriptor
deriving DecidableEq, Hashable, Repr, Inhabited

namespace Prototype

/-- How many registers the parameters take. -/
def parameterWidth (p : Prototype) : Nat := p.parameters.foldl (fun n d => n + d.width) 0

/-- The letter of a parameter; a parameter is never `void`. -/
def parameterShorty? (d : Descriptor) : Option Char := d.shorty?.filter (· != 'V')

/-- The letters of the result and of the parameters, in this order. -/
def shorty? (p : Prototype) : Option String := do
  let result ← p.result.shorty?
  let parameters ← p.parameters.mapM parameterShorty?
  return String.ofList (result :: parameters)

/-- The parameters in parentheses, then the result. -/
def render (p : Prototype) : String :=
  String.join ("(" :: p.parameters.map Descriptor.text ++ [")", p.result.text])

end Prototype

end StubJar.Dalvik
