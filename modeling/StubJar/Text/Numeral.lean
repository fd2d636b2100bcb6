/-!
# Numbers as text

The two written forms that messages use, fixed-width hexadecimal and
fixed-width decimal, and the reading of a decimal number with an optional
sign.
-/

namespace StubJar.Text

/-- At least `width` lower-case hexadecimal digits. -/
def hex (width n : Nat) : String := String.ofList ((Nat.toDigits 16 n).leftpad width '0')

/-- Hexadecimal behind `0x`, with at least `width` digits. -/
def hexLiteral (width n : Nat) : String := "0x" ++ hex width n

/-- At least `width` decimal digits. -/
def decimal (width n : Nat) : String := String.ofList ((Nat.toDigits 10 n).leftpad width '0')

/-- Two hexadecimal digits for each byte. -/
def hexBytes (bytes : List UInt8) : String :=
  String.ofList (bytes.flatMap fun b => (Nat.toDigits 16 b.toNat).leftpad 2 '0')

/-- The value of a run of decimal digits, which must not be empty. -/
def digits? (cs : List Char) : Option Nat :=
  if cs.isEmpty || !cs.all Char.isDigit then none
  else some (cs.foldl (fun n c => 10 * n + (c.toNat - '0'.toNat)) 0)

/-- A natural number in decimal, a plus sign in front allowed. -/
def natural? : List Char → Option Nat
  | '+' :: cs => digits? cs
  | cs => digits? cs

/-- An integer in decimal, one sign in front allowed. -/
def integer? : List Char → Option Int
  | '-' :: cs => (digits? cs).map fun n => -(n : Int)
  | cs => (natural? cs).map Int.ofNat

end StubJar.Text
