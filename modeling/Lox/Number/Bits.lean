import Lox.Number.Double

/-!
Doubles named by their bit patterns.
-/

namespace Lox.Number

/-- Sixteen hexadecimal digits. All that is not a number has one pattern. -/
def bits (number : Float) : String :=
  let digits := Nat.toDigits 16 number.toBits.toNat
  String.ofList (List.replicate (16 - digits.length) '0' ++ digits)

def hexDigit? (char : Char) : Option Nat :=
  if '0' ≤ char ∧ char ≤ '9' then some (char.toNat - '0'.toNat)
  else if 'a' ≤ char ∧ char ≤ 'f' then some (char.toNat - 'a'.toNat + 10)
  else none

def ofBits? (text : String) : Option Float :=
  if text.length ≠ 16 then none
  else (text.toList.mapM hexDigit?).map fun digits =>
    Float.ofBits (digits.foldl (fun value digit => value * 16 + digit) 0).toUInt64

end Lox.Number
