import Lox.Number.Double

/-!
The written form of numbers. Whole numbers below 10^16 are written out exactly.
Any other finite number gets the fewest digits that read back to it, the nearest
such decimal, the upper one of two that are equally near. There is no exponent
notation: zeros fill the places.
-/

namespace Lox

namespace Decimal

/-- The decimal `digits * 10 ^ exponent`. -/
def scaled (digits : Nat) (exponent : Int) : Decimal :=
  ⟨digits * Nat.pow 10 exponent.toNat, (-exponent).toNat⟩

/-- Of the two multiples of `10 ^ exponent` around a magnitude, the nearer one
that reads back to it. Of two that are equally near, the upper one is tried
first. -/
def onGrid? (magnitude : Nat) (exponent : Int) : Option Decimal :=
  let amount := Double.units magnitude * Nat.pow 10 (-exponent).toNat
  let step := Double.one * Nat.pow 10 exponent.toNat
  let low := scaled (amount / step) exponent
  let high := scaled (amount / step + 1) exponent
  let order := if 2 * amount < (2 * (amount / step) + 1) * step then [low, high] else [high, low]
  order.find? fun decimal => decimal.nearest == magnitude

/-- A power of ten above the magnitude, and not far above it. -/
def ceilingExponent (magnitude : Nat) : Int :=
  ((Double.units magnitude).log2 - 1073 : Int) * 30103 / 100000 + 1

/-- The magnitude itself, all its digits written out. -/
def exact (magnitude : Nat) : Decimal :=
  ⟨Double.units magnitude * Nat.pow 5 1074, 1074⟩

/-- The coarsest grid wins, and with it the fewest digits. Seventeen digits
always suffice, so the exact value is never needed; it stands there because it
would be right as well. -/
def shortest (magnitude : Nat) : Decimal :=
  let top := ceilingExponent magnitude
  let found := (List.range 20).findSome? fun (step : Nat) => onGrid? magnitude (top - step)
  found.getD (exact magnitude)

/-- The decimal that is written for a finite magnitude. -/
def canonical (magnitude : Nat) : Decimal :=
  let amount := Double.units magnitude
  if amount % Double.one = 0 ∧ amount < Nat.pow 10 16 * Double.one then ⟨amount / Double.one, 0⟩
  else shortest magnitude

/-- Zeros in front, up to the width. -/
def padLeft (width : Nat) (digits : List Char) : List Char :=
  List.replicate (width - digits.length) '0' ++ digits

/-- Positional notation with exactly `places` digits after the point, and no
point when there are none. -/
def text (decimal : Decimal) : List Char :=
  let scale := Nat.pow 10 decimal.places
  let whole := Nat.toDigits 10 (decimal.digits / scale)
  if decimal.places = 0 then whole
  else whole ++ '.' :: padLeft decimal.places (Nat.toDigits 10 (decimal.digits % scale))

/-- The numeral with these digits before and after the point. -/
def ofDigits (whole fraction : List Char) : Decimal :=
  ⟨(whole ++ fraction).foldl (fun value digit => value * 10 + (digit.toNat - '0'.toNat)) 0,
    fraction.length⟩

end Decimal

namespace Number

/-- The double that a numeral stands for. -/
def ofDecimal (decimal : Decimal) : Float := Float.ofBits decimal.nearest.toUInt64

def magnitude (number : Float) : Nat := number.toBits.toNat % Nat.pow 2 63

/-- The sign bit, which zeros have too. -/
def isNegative (number : Float) : Bool := Nat.pow 2 63 ≤ number.toBits.toNat

def text (number : Float) : String :=
  let size := magnitude number
  if Double.infinity < size then "NaN"
  else
    let shown := if size = Double.infinity then ['i', 'n', 'f'] else (Decimal.canonical size).text
    String.ofList (if isNegative number then '-' :: shown else shown)

end Number
end Lox
