/-!
# Numbers in base sixteen

Lowercase digits, without padding (`ofNat`) or with a fixed number of places (`byte`).
-/

namespace ClassWeave.Hex

/-- The digits of a number, at least one. -/
def ofNat (n : Nat) : String := String.ofList (Nat.toDigits 16 n)

/-- Both digits of a byte. -/
def byte (b : UInt8) : String :=
  String.ofList [Nat.digitChar (b.toNat / 16), Nat.digitChar (b.toNat % 16)]

end ClassWeave.Hex
