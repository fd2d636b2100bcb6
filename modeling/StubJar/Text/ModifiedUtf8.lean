import StubJar.Text.Numeral
import StubJar.Text.Utf16

/-!
# Modified UTF-8

The encoding of strings in containers and in class files: every UTF-16 unit
stands for itself in one, two or three bytes. The null character takes the
two-byte form, so an encoded string holds no zero byte, and a character
beyond the basic plane is written as its two surrogates.

Writing is canonical; reading accepts longer forms than needed and refuses
only what the grammar of the bytes, or the pairing of surrogates, rules out.
-/

namespace StubJar.Text.ModifiedUtf8

/-- The bytes of one UTF-16 unit. -/
def encodeUnit (u : Nat) : List UInt8 :=
  if 0 < u && u < 0x80 then [UInt8.ofNat u]
  else if u < 0x800 then [UInt8.ofNat (0xC0 + u / 0x40), UInt8.ofNat (0x80 + u % 0x40)]
  else
    [UInt8.ofNat (0xE0 + u / 0x1000), UInt8.ofNat (0x80 + u / 0x40 % 0x40),
      UInt8.ofNat (0x80 + u % 0x40)]

/-- The encoded form of a string, without a terminator. -/
def encode (s : String) : List UInt8 := (units s).flatMap encodeUnit

/-- Why bytes are not modified UTF-8. Positions count bytes from the start of
the string. -/
inductive Fault where
  /-- A zero byte. -/
  | nullByte (pos : Nat)
  /-- A byte that opens no unit. -/
  | badLead (byte : UInt8) (pos : Nat)
  /-- A byte that should continue a unit and does not. -/
  | badContinuation (byte : UInt8) (pos : Nat)
  /-- The bytes end inside the unit that started at `lead`. -/
  | cutShort (lead : Nat)
  /-- A surrogate without its partner. -/
  | loneSurrogate
deriving DecidableEq, Repr

/-- The wording of a fault. -/
def Fault.message : Fault → String
  | .nullByte pos => s!"Unexpected null byte at {pos}"
  | .badLead byte pos => s!"Invalid lead byte {hexLiteral 2 byte.toNat} at {pos}"
  | .badContinuation byte pos => s!"Bad continuation byte {hexLiteral 2 byte.toNat} at {pos}"
  | .cutShort lead => s!"Truncated sequence starting at {lead}"
  | .loneSurrogate => "invalid utf-16: lone surrogate found"

/-- A byte that continues a unit. -/
def continues (b : UInt8) : Bool := 0x80 ≤ b && b < 0xC0

/-- The units that the bytes spell, behind those already read (kept in
reverse); `pos` is the position of the first byte. -/
def unitsFrom (pos : Nat) (read : List Nat) : List UInt8 → Except Fault (List Nat)
  | [] => .ok read.reverse
  | a :: r =>
    if a = 0 then .error (.nullByte pos)
    else if a < 0x80 then unitsFrom (pos + 1) (a.toNat :: read) r
    else if 0xC0 ≤ a && a < 0xE0 then
      match r with
      | [] => .error (.cutShort pos)
      | b :: r' =>
        if continues b then
          unitsFrom (pos + 2) ((a.toNat % 0x20 * 0x40 + b.toNat % 0x40) :: read) r'
        else .error (.badContinuation b (pos + 1))
    else if 0xE0 ≤ a && a < 0xF0 then
      match r with
      | [] => .error (.cutShort pos)
      | b :: r' =>
        if continues b then
          match r' with
          | [] => .error (.cutShort pos)
          | c :: r'' =>
            if continues c then
              unitsFrom (pos + 3)
                ((a.toNat % 0x10 * 0x1000 + b.toNat % 0x40 * 0x40 + c.toNat % 0x40) :: read) r''
            else .error (.badContinuation c (pos + 2))
        else .error (.badContinuation b (pos + 1))
    else .error (.badLead a pos)

/-- The string that the bytes spell. -/
def decode (bytes : List UInt8) : Except Fault String :=
  match unitsFrom 0 [] bytes with
  | .error fault => .error fault
  | .ok us =>
    match ofUnits? us with
    | some s => .ok s
    | none => .error .loneSurrogate

end StubJar.Text.ModifiedUtf8
