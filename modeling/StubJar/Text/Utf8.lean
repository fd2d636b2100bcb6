/-!
# Texts as bytes

The bytes of a text in UTF-8, and UTF-8 read without ever failing: each
maximal piece that starts like a character and does not end like one is shown
as the replacement character.
-/

namespace StubJar.Text

/-- The bytes of a text. -/
def utf8 (s : String) : List UInt8 := s.toUTF8.data.toList

/-- The character shown for bytes that are no UTF-8. -/
def replacementChar : Char := Char.ofNat 0xFFFD

/-- A byte that continues a UTF-8 sequence. -/
def isContinuation (b : UInt8) : Bool := 0x80 ≤ b && b < 0xC0

/-- The six payload bits of a continuation byte. -/
def payload (b : UInt8) : Nat := b.toNat % 0x40

/-- Whether `b` may follow the first byte of a three-byte sequence; overlong
forms and surrogates are excluded here. -/
def mayFollowThree (lead b : UInt8) : Bool :=
  isContinuation b && (lead != 0xE0 || 0xA0 ≤ b) && (lead != 0xED || b < 0xA0)

/-- Whether `b` may follow the first byte of a four-byte sequence; overlong
forms and values past the last character are excluded here. -/
def mayFollowFour (lead b : UInt8) : Bool :=
  isContinuation b && (lead != 0xF0 || 0x90 ≤ b) && (lead != 0xF4 || b < 0x90)

/-- The characters of a byte string, with `replacementChar` for every piece
that is no UTF-8. -/
def lossyChars : List UInt8 → List Char
  | [] => []
  | a :: r =>
    if a < 0x80 then Char.ofNat a.toNat :: lossyChars r
    else if 0xC2 ≤ a && a < 0xE0 then
      match r with
      | [] => [replacementChar]
      | b :: r' =>
        if isContinuation b then
          Char.ofNat (a.toNat % 0x20 * 0x40 + payload b) :: lossyChars r'
        else replacementChar :: lossyChars (b :: r')
    else if 0xE0 ≤ a && a < 0xF0 then
      match r with
      | [] => [replacementChar]
      | b :: r' =>
        if mayFollowThree a b then
          match r' with
          | [] => [replacementChar]
          | c :: r'' =>
            if isContinuation c then
              Char.ofNat ((a.toNat % 0x10 * 0x40 + payload b) * 0x40 + payload c)
                :: lossyChars r''
            else replacementChar :: lossyChars (c :: r'')
        else replacementChar :: lossyChars (b :: r')
    else if 0xF0 ≤ a && a < 0xF5 then
      match r with
      | [] => [replacementChar]
      | b :: r' =>
        if mayFollowFour a b then
          match r' with
          | [] => [replacementChar]
          | c :: r'' =>
            if isContinuation c then
              match r'' with
              | [] => [replacementChar]
              | d :: r''' =>
                if isContinuation d then
                  Char.ofNat (((a.toNat % 8 * 0x40 + payload b) * 0x40 + payload c) * 0x40
                    + payload d) :: lossyChars r'''
                else replacementChar :: lossyChars (d :: r''')
            else replacementChar :: lossyChars (c :: r'')
        else replacementChar :: lossyChars (b :: r')
    else replacementChar :: lossyChars r

/-- A byte string as text. -/
def lossy (bytes : List UInt8) : String := String.ofList (lossyChars bytes)

end StubJar.Text
