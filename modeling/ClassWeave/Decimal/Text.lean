import ClassWeave.Decimal.Shortest

/-!
# Decimals as text

A decimal is written positionally or with an exponent. Two styles are in use: the plain one is
always positional and has no point in a whole number; the marked one has at least one digit behind
the point and turns to exponents below `10^-4` and from `10^16` on.
-/

namespace ClassWeave.Decimal

/-- The digits of a number, first one first. -/
def digitChars (n : Nat) : List Char := Nat.toDigits 10 n

/-- How the finite floats of one output are written. -/
structure Style where
  /-- Digits behind the point that are always there. -/
  places : Nat
  /-- Whether a number whose first digit stands at `10^exponent` is written positionally. -/
  positional : Int → Bool

/-- Always positional, and no point in a whole number. -/
def Style.plain : Style := ⟨0, fun _ => true⟩

/-- At least one digit behind the point, and exponents for the very small and the very large. -/
def Style.marked : Style := ⟨1, fun e => -5 < e && e < 16⟩

/-- Digits in front of the point, digits behind it, and the point unless nothing is behind it. -/
def join (whole fraction : List Char) : String :=
  if fraction.isEmpty then String.ofList whole
  else String.ofList (whole ++ '.' :: fraction)

/-- Pads a list of digits with zeros to the least number of places. -/
def padded (places : Nat) (fraction : List Char) : List Char :=
  fraction ++ List.replicate (places - fraction.length) '0'

/-- The positional form. -/
def plainForm (places : Nat) (d : Number) : String :=
  let digits := digitChars d.digits
  if 0 ≤ d.exponent then
    join (digits ++ List.replicate d.exponent.toNat '0') (padded places [])
  else
    let behind := (-d.exponent).toNat
    if digits.length ≤ behind then
      join ['0'] (padded places (List.replicate (behind - digits.length) '0' ++ digits))
    else
      join (digits.take (digits.length - behind))
        (padded places (digits.drop (digits.length - behind)))

/-- The exponent of the first digit. -/
def leading (d : Number) : Int := (digitChars d.digits).length - 1 + d.exponent

/-- One digit, the others behind the point, and the exponent of the first. -/
def exponentForm (d : Number) : String :=
  let digits := digitChars d.digits
  join (digits.take 1) (digits.drop 1) ++ "e" ++ toString (leading d)

/-- A positive decimal in a style. -/
def Style.text (style : Style) (d : Number) : String :=
  if style.positional (leading d) then plainForm style.places d else exponentForm d

/-- The sign in front of a negative number. -/
def signed (negative : Bool) (s : String) : String := if negative then "-" ++ s else s

/-- A float, given by its bits, in a style. The sign of a `NaN` is not shown. -/
def Style.float (style : Style) (layout : FloatLayout) (bits : Nat) : String :=
  match layout.value bits with
  | .nan => "NaN"
  | .infinite negative => signed negative "inf"
  | .zero negative => signed negative (join ['0'] (padded style.places []))
  | .finite negative m e narrow => signed negative (style.text (shortest m e narrow))

end ClassWeave.Decimal
