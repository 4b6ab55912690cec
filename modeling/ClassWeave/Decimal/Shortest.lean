/-!
# The shortest decimal of a binary float

A float is given by its bits and their layout. A finite one stands for `m · 2^e`; every real in the
interval around it, halfway to its neighbours, rounds to it. `shortest` gives the decimal with the
fewest digits in that interval, and of those with equally many the one nearest to the value, the
upper one if two are equally near. All arithmetic is on natural numbers and exact.
-/

namespace ClassWeave.Decimal

/-- How the bits of a float are laid out: a sign, an exponent and a fraction, from high to low. -/
structure FloatLayout where
  exponentBits : Nat
  fractionBits : Nat
deriving Repr, DecidableEq

/-- The layout of 32-bit floats. -/
def FloatLayout.single : FloatLayout := ⟨8, 23⟩

/-- The layout of 64-bit floats. -/
def FloatLayout.double : FloatLayout := ⟨11, 52⟩

/-- A positive decimal: `digits · 10^exponent`. -/
structure Number where
  digits : Nat
  exponent : Int
deriving Repr, DecidableEq

/-- What a float stands for. -/
inductive FloatValue where
  | nan
  | infinite (negative : Bool)
  | zero (negative : Bool)
  /-- `significand · 2^exponent`, with the neighbour below at half the distance if `narrow`. -/
  | finite (negative : Bool) (significand : Nat) (exponent : Int) (narrow : Bool)
deriving Repr, DecidableEq

/-- Takes the bits of a float apart. -/
def FloatLayout.value (layout : FloatLayout) (bits : Nat) : FloatValue :=
  let one := 1 <<< layout.fractionBits
  let full := 1 <<< layout.exponentBits
  let fraction := bits % one
  let biased := bits / one % full
  let negative := bits / (one * full) % 2 = 1
  let least : Int := 2 - Int.ofNat (full / 2 + layout.fractionBits)
  if biased = full - 1 then
    if fraction = 0 then .infinite negative else .nan
  else if biased = 0 then
    if fraction = 0 then .zero negative else .finite negative fraction least false
  else
    .finite negative (one + fraction) (least + Int.ofNat (biased - 1)) (fraction = 0)

/-- The reals that round to a value `value / unit`: those from `value - below` to `value + above`,
the ends included if `closed`. All four are numbers of parts of size `1 / unit`. -/
structure Interval where
  value : Nat
  below : Nat
  above : Nat
  unit : Nat
  closed : Bool
deriving Repr, DecidableEq

/-- The interval of a finite float, in quarters of its last binary place. -/
def Interval.ofFloat (significand : Nat) (exponent : Int) (narrow : Bool) : Interval where
  value := (4 * significand) <<< exponent.toNat
  below := (if narrow then 1 else 2) <<< exponent.toNat
  above := 2 <<< exponent.toNat
  unit := 4 <<< (-exponent).toNat
  closed := significand % 2 = 0

variable (i : Interval)

/-- A point below the value, `point · step / unit`, lies in the interval. -/
def Interval.holdsBelow (point step : Nat) : Bool :=
  let distance := i.value - point * step
  if i.closed then distance ≤ i.below else distance < i.below

/-- A point above the value lies in the interval. -/
def Interval.holdsAbove (point step : Nat) : Bool :=
  let distance := point * step - i.value
  if i.closed then distance ≤ i.above else distance < i.above

/-- The multiple of `step` to take, if one of the value's two neighbours among them lies in the
interval. -/
def Interval.onGrid (step : Nat) : Option Nat :=
  let low := i.value / step
  let high := low + 1
  match i.holdsBelow low step, i.holdsAbove high step with
  | true, true => if i.value - low * step < high * step - i.value then low else high
  | true, false => low
  | false, true => high
  | false, false => none

/-- Tries grids of width `10^exponent`, each ten times finer than the one before. -/
def Interval.refine (exponent : Int) : Nat → Number
  | 0 => ⟨i.value / i.unit, 0⟩
  | fuel + 1 =>
    let scaled : Interval :=
      { i with
        value := i.value * 10 ^ (-exponent).toNat
        below := i.below * 10 ^ (-exponent).toNat
        above := i.above * 10 ^ (-exponent).toNat }
    match scaled.onGrid (i.unit * 10 ^ exponent.toNat) with
    | some 0 | none => refine (exponent - 1) fuel
    | some digits => ⟨digits, exponent⟩

/-- The least power of ten above `value / unit`, found from a first guess that is not too large. -/
def Interval.powerAbove (exponent : Int) : Nat → Int
  | 0 => exponent
  | fuel + 1 =>
    if i.value * 10 ^ (-exponent).toNat < i.unit * 10 ^ exponent.toNat then exponent
    else powerAbove (exponent + 1) fuel

/-- The shortest decimal in the interval of a finite float. -/
def shortest (significand : Nat) (exponent : Int) (narrow : Bool) : Number :=
  let i := Interval.ofFloat significand exponent narrow
  let magnitude : Int := significand.log2 + exponent
  -- 1233 / 4096 is a little more than the decimal logarithm of two
  let guess : Int := Int.fdiv (magnitude * 1233) 4096 - 1
  i.refine (i.powerAbove guess 8) 18

end ClassWeave.Decimal
