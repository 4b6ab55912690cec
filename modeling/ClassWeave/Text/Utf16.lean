/-!
# Characters as 16-bit units

A character below `0x10000` is one unit. Any other is a pair of units, the first from
`0xD800` to `0xDBFF` and the second from `0xDC00` to `0xDFFF`; no character is a unit from these
two ranges on its own.
-/

namespace ClassWeave.Utf16

/-- The units of one character. -/
def ofChar (c : Char) : List UInt16 :=
  if c.toNat < 0x10000 then [UInt16.ofNat c.toNat]
  else
    let above := c.toNat - 0x10000
    [UInt16.ofNat (0xD800 + above / 0x400), UInt16.ofNat (0xDC00 + above % 0x400)]

/-- A unit that opens a pair. -/
def isHigh (u : UInt16) : Bool := 0xD800 ≤ u && u < 0xDC00

/-- A unit that closes a pair. -/
def isLow (u : UInt16) : Bool := 0xDC00 ≤ u && u < 0xE000

/-- The character that a pair of units stands for. -/
def ofPair (high low : UInt16) : Char :=
  Char.ofNat (0x10000 + (high.toNat - 0xD800) * 0x400 + (low.toNat - 0xDC00))

/-- Reads units in front of characters read so far, which are kept last first. -/
def toCharsOnto (found : List Char) : List UInt16 → Option (List Char)
  | [] => some found.reverse
  | u :: rest =>
    if isHigh u then
      match rest with
      | v :: rest => if isLow v then toCharsOnto (ofPair u v :: found) rest else none
      | [] => none
    else if isLow u then none
    else toCharsOnto (Char.ofNat u.toNat :: found) rest

/-- The characters that units stand for, unless half of a pair stands alone. -/
def toChars? (units : List UInt16) : Option (List Char) := toCharsOnto [] units

end ClassWeave.Utf16
