/-!
# UTF-16 units of a string

A string is a list of characters; two formats of this library count and
order strings by their UTF-16 units instead. `units` is that view, `ofUnits?`
reads it back, and the only lists it refuses are those in which a surrogate
stands without its partner.
-/

namespace StubJar.Text

/-- The UTF-16 units of one character: itself in the basic plane, a
surrogate pair beyond it. -/
def charUnits (c : Char) : List Nat :=
  if c.toNat < 0x10000 then [c.toNat]
  else [0xD800 + (c.toNat - 0x10000) / 0x400, 0xDC00 + (c.toNat - 0x10000) % 0x400]

/-- The UTF-16 units of a string, in order. -/
def units (s : String) : List Nat := s.toList.flatMap charUnits

/-- A unit that opens a surrogate pair. -/
def isHighSurrogate (u : Nat) : Bool := 0xD800 ≤ u && u < 0xDC00

/-- A unit that closes a surrogate pair. -/
def isLowSurrogate (u : Nat) : Bool := 0xDC00 ≤ u && u < 0xE000

/-- The character a surrogate pair stands for. -/
def pairChar (high low : Nat) : Char :=
  Char.ofNat (0x10000 + (high - 0xD800) * 0x400 + (low - 0xDC00))

/-- The characters that `us` spells, behind those already read (kept in
reverse). A surrogate without its partner spells nothing. -/
def charsFrom? (read : List Char) : List Nat → Option (List Char)
  | [] => some read.reverse
  | u :: us =>
    if isHighSurrogate u then
      match us with
      | v :: vs => if isLowSurrogate v then charsFrom? (pairChar u v :: read) vs else none
      | [] => none
    else if isLowSurrogate u then none
    else charsFrom? (Char.ofNat u :: read) us

/-- The string whose UTF-16 units are `us`, if there is one. -/
def ofUnits? (us : List Nat) : Option String := (charsFrom? [] us).map String.ofList

end StubJar.Text
