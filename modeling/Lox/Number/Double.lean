/-!
Double-precision magnitudes as natural numbers. The magnitudes in increasing
order are numbered by their bit patterns, and each is a whole number of units of
2^-1074, so every comparison below is one of naturals and nothing is rounded
before the end. Reading a decimal means choosing the nearest magnitude, the even
one of two that are equally near.
-/

namespace Lox

/-- The decimal numeral `digits / 10 ^ places`. -/
structure Decimal where
  digits : Nat
  places : Nat
  deriving DecidableEq, Repr

namespace Double

/-- How many units of 2^-1074 make one. -/
def one : Nat := Nat.pow 2 1074

/-- How many magnitudes share an exponent. -/
def binade : Nat := Nat.pow 2 52

/-- The value of a magnitude in units of 2^-1074. -/
def units (magnitude : Nat) : Nat :=
  if magnitude < binade then magnitude
  else (binade + magnitude % binade) * Nat.pow 2 (magnitude / binade - 1)

/-- The magnitude that stands for infinity; its units continue the pattern of
the finite ones, which is what decides where rounding overflows. -/
def infinity : Nat := 0x7FF0000000000000

/-- The greatest magnitude of at most so many units. -/
def below (amount : Nat) : Nat :=
  let shift := amount.log2 - 52
  shift * binade + amount / Nat.pow 2 shift

end Double

/-- The magnitude nearest to the numeral. -/
def Decimal.nearest (decimal : Decimal) : Nat :=
  let scale := Nat.pow 10 decimal.places
  let amount := decimal.digits * Double.one
  let low := Double.below (amount / scale)
  if Double.infinity ≤ low then Double.infinity
  else
    match compare (2 * amount) ((Double.units low + Double.units (low + 1)) * scale) with
    | .lt => low
    | .gt => low + 1
    | .eq => if low % 2 = 0 then low else low + 1

end Lox
