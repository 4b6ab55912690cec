import ClassWeave.Bytes.Reader
import ClassWeave.Text.Utf16

/-!
# Text of a constant as bytes

Text is written unit by unit: a unit takes one byte if it is below `0x80` and not zero, two bytes
if it is zero or below `0x800`, and three bytes otherwise. So no byte of a text is zero, and a
character outside the sixteen-bit range takes six bytes. Reading follows the shape of the first byte
and accepts longer forms than needed.
-/

namespace ClassWeave.ModifiedUtf8

/-- The bytes of one unit. -/
def ofUnit (u : UInt16) : List UInt8 :=
  let n := u.toNat
  if 0 < n ∧ n < 0x80 then [UInt8.ofNat n]
  else if n < 0x800 then [UInt8.ofNat (0xC0 + n / 0x40), UInt8.ofNat (0x80 + n % 0x40)]
  else
    [UInt8.ofNat (0xE0 + n / 0x1000), UInt8.ofNat (0x80 + n / 0x40 % 0x40),
      UInt8.ofNat (0x80 + n % 0x40)]

/-- The bytes of one character. -/
def ofChar (c : Char) : List UInt8 := (Utf16.ofChar c).flatMap ofUnit

/-- The bytes of a text. -/
def encode (s : String) : List UInt8 := s.toList.flatMap ofChar

/-- A byte that goes on with a character. -/
def isContinuation (b : UInt8) : Bool := 0x80 ≤ b && b < 0xC0

/-- The unit written in two bytes. -/
def unit2 (b₀ b₁ : UInt8) : UInt16 :=
  UInt16.ofNat (b₀.toNat % 0x20 * 0x40 + b₁.toNat % 0x40)

/-- The unit written in three bytes. -/
def unit3 (b₀ b₁ b₂ : UInt8) : UInt16 :=
  UInt16.ofNat (b₀.toNat % 0x10 * 0x1000 + b₁.toNat % 0x40 * 0x40 + b₂.toNat % 0x40)

/-- Reads units behind those read so far, which are kept last first. -/
def unitsOnto (found : List UInt16) : List UInt8 → Except FormatError (List UInt16)
  | [] => .ok found.reverse
  | b₀ :: rest =>
    if b₀ < 0x80 then unitsOnto (b₀.toUInt16 :: found) rest
    else if 0xC0 ≤ b₀ && b₀ < 0xE0 then
      match rest with
      | b₁ :: rest =>
        if isContinuation b₁ then unitsOnto (unit2 b₀ b₁ :: found) rest
        else .error .truncatedText
      | [] => .error .truncatedText
    else if 0xE0 ≤ b₀ && b₀ < 0xF0 then
      match rest with
      | b₁ :: b₂ :: rest =>
        if isContinuation b₁ && isContinuation b₂ then unitsOnto (unit3 b₀ b₁ b₂ :: found) rest
        else .error .truncatedText
      | _ => .error .truncatedText
    else .error (.badTextByte b₀)

/-- The units that bytes stand for. -/
def units (bytes : List UInt8) : Except FormatError (List UInt16) := unitsOnto [] bytes

/-- The text that bytes stand for. -/
def decode (bytes : List UInt8) : Except FormatError String := do
  match Utf16.toChars? (← units bytes) with
  | some chars => .ok (String.ofList chars)
  | none => .error .loneSurrogate

end ClassWeave.ModifiedUtf8
