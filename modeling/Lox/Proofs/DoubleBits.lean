import Lox.Number.Text
import Mathlib.Algebra.Group.Nat.Defs

/-! The bits of a double are its sign, its exponent and its mantissa. A pattern that is a number is the
pattern of the double that is made of it, and negation changes the sign alone. -/

namespace Lox.Number

open Float.Model UnpackedFloat

theorem toNat_append {width more : Nat} (front : BitVec width) (back : BitVec more) :
    (front ++ back).toNat = 2 ^ more * front.toNat + back.toNat := by
  rw [BitVec.toNat_append, Nat.shiftLeft_eq, Nat.mul_comm, Nat.two_pow_add_eq_or_of_lt back.isLt]

theorem toNat_leading (mantissa : BitVec 52) :
    (1#1 ++ mantissa).toNat = 2 ^ 52 + mantissa.toNat :=
  toNat_append 1#1 mantissa

/-- The double that a sign, an exponent and a mantissa make up. -/
def assemble (sign : Sign) (exponent : BitVec 11) (mantissa : BitVec 52) : UnpackedFloat :=
  if exponent = -1#11 then
    if mantissa = 0#52 then .infinity sign else .notANumber
  else if exponent = 0#11 then
    if filled : mantissa = 0#52 then .zero sign
    else .finite sign mantissa.toNat (exponent.toNat - (1023 + 52) + 1)
      (Nat.pos_of_ne_zero fun none => filled (BitVec.eq_of_toNat_eq none))
  else .finite sign (1#1 ++ mantissa).toNat (exponent.toNat - (1023 + 52)) (by
    rw [toNat_leading]
    omega)

theorem unpack_eq (bits : BitVec 64) : unpack Format.binary64 bits =
    assemble (Sign.ofBitVec (@unpackSign .binary64 bits)) (@unpackExponent .binary64 bits)
      (@unpackMantissa .binary64 bits) := by
  rfl

theorem neg_assemble (sign : Sign) (exponent : BitVec 11) (mantissa : BitVec 52) :
    (assemble sign exponent mantissa).neg = assemble (-sign) exponent mantissa := by
  unfold assemble
  by_cases full : exponent = -1#11
  · rw [if_pos full, if_pos full]
    by_cases none : mantissa = 0#52
    · rw [if_pos none, if_pos none]
      rfl
    · rw [if_neg none, if_neg none]
      rfl
  · rw [if_neg full, if_neg full]
    by_cases zero : exponent = 0#11
    · rw [if_pos zero, if_pos zero]
      by_cases none : mantissa = 0#52
      · rw [dif_pos none, dif_pos none]
        rfl
      · rw [dif_neg none, dif_neg none]
        rfl
    · rw [if_neg zero, if_neg zero]
      rfl

theorem pack_finite (sign : Sign) {mantissa : Nat} {exponent : Int} (filled : 0 < mantissa) :
    (UnpackedFloat.finite sign mantissa exponent filled).pack Format.binary64 =
      if 2 ^ 11 ≤ (exponent + 1023 + 52).toNat + 1 then packedInfinity Format.binary64 sign
      else if mantissa.log2 + 1 = 53 then
        packComponents Format.binary64 sign (BitVec.ofNat 11 (exponent + 1023 + 52).toNat)
          (BitVec.ofNat 52 mantissa)
      else packComponents Format.binary64 sign 0#11 (BitVec.ofNat 52 mantissa) :=
  rfl

theorem pack_assemble (sign : Sign) {exponent : BitVec 11} {mantissa : BitVec 52}
    (number : exponent = -1#11 → mantissa = 0#52) :
    (assemble sign exponent mantissa).pack Format.binary64 =
      packComponents Format.binary64 sign exponent mantissa := by
  unfold assemble
  have small := mantissa.isLt
  by_cases full : exponent = -1#11
  · rw [if_pos full, if_pos (number full), full, number full]
    rfl
  have bound := exponent.isLt
  have other : exponent.toNat ≠ 2047 := fun same => full (BitVec.eq_of_toNat_eq same)
  rw [if_neg full]
  by_cases zero : exponent = 0#11
  · rw [if_pos zero]
    by_cases none : mantissa = 0#52
    · rw [dif_pos none, zero, none]
      rfl
    · have positive : mantissa.toNat ≠ 0 := fun empty => none (BitVec.eq_of_toNat_eq empty)
      have log : mantissa.toNat.log2 < 52 := (Nat.log2_lt positive).mpr small
      rw [dif_neg none, pack_finite, zero, if_neg (by decide), if_neg (by omega),
        BitVec.ofNat_toNat, BitVec.setWidth_eq]
  · have log : (1#1 ++ mantissa).toNat.log2 = 52 := by
      rw [toNat_leading, Nat.log2_eq_iff (by omega)]
      omega
    have exponent' : ((exponent.toNat : Int) - (1023 + 52) + 1023 + 52).toNat = exponent.toNat := by
      omega
    rw [if_neg zero, pack_finite, exponent', if_neg (by omega), log, if_pos rfl, toNat_leading,
      BitVec.ofNat_toNat, BitVec.setWidth_eq]
    congr 1
    apply BitVec.eq_of_toNat_eq
    rw [BitVec.toNat_ofNat]
    omega

theorem toNat_packed (sign : Sign) (exponent : BitVec 11) (mantissa : BitVec 52) :
    (packComponents Format.binary64 sign exponent mantissa : BitVec 64).toNat =
      2 ^ 63 * sign.toBitVec.toNat + 2 ^ 52 * exponent.toNat + mantissa.toNat := by
  have outer := toNat_append (sign.toBitVec ++ exponent) mantissa
  rw [toNat_append sign.toBitVec exponent] at outer
  rw [Nat.mul_add, ← Nat.mul_assoc, ← Nat.pow_add] at outer
  exact outer

section Fields

variable (bits : BitVec 64)

theorem toNat_exponent :
    (@unpackExponent .binary64 bits).toNat = bits.toNat / 2 ^ 52 % 2 ^ 11 := by
  simp [unpackExponent, BitVec.extractLsb, Nat.shiftRight_eq_div_pow]

theorem toNat_mantissa : (@unpackMantissa .binary64 bits).toNat = bits.toNat % 2 ^ 52 := by
  simp [unpackMantissa, BitVec.extractLsb]

theorem toNat_sign : (@unpackSign .binary64 bits).toNat = bits.toNat / 2 ^ 63 := by
  have field : (@unpackSign .binary64 bits).toNat = bits.toNat / 2 ^ 63 % 2 ^ 1 := by
    unfold unpackSign
    simp [BitVec.extractLsb, Nat.shiftRight_eq_div_pow]
  have bound := bits.isLt
  omega

end Fields

/-- A pattern of at most infinity is a number. -/
theorem number_of_le {bits : BitVec 64} (number : bits.toNat % Nat.pow 2 63 ≤ Double.infinity) :
    @unpackExponent .binary64 bits = -1#11 → @unpackMantissa .binary64 bits = 0#52 := by
  intro full
  have top : bits.toNat / 2 ^ 52 % 2 ^ 11 = 2047 :=
    (toNat_exponent bits).symm.trans (congrArg BitVec.toNat full)
  have infinity : Double.infinity = 2047 * 2 ^ 52 := rfl
  rw [Nat.pow_eq, infinity] at number
  apply BitVec.eq_of_toNat_eq
  rw [toNat_mantissa]
  show bits.toNat % 2 ^ 52 = 0
  omega

theorem sign_toBitVec (sign : BitVec 1) : (Sign.ofBitVec sign).toBitVec = sign := by
  unfold Sign.ofBitVec
  split
  next zero => exact zero.symm
  next one =>
    have bound := sign.isLt
    have other : sign.toNat ≠ 0 := fun zero => one (BitVec.eq_of_toNat_eq zero)
    apply BitVec.eq_of_toNat_eq
    show 1 = sign.toNat
    omega

theorem toNat_neg_sign (sign : BitVec 1) :
    (-Sign.ofBitVec sign).toBitVec.toNat = 1 - sign.toNat := by
  unfold Sign.ofBitVec
  split
  next zero =>
    rw [zero]
    rfl
  next one =>
    have bound := sign.isLt
    have other : sign.toNat ≠ 0 := fun zero => one (BitVec.eq_of_toNat_eq zero)
    show 0 = 1 - sign.toNat
    omega

theorem toBits_ofBits {bits : UInt64} (number : bits.toNat % Nat.pow 2 63 ≤ Double.infinity) :
    (Float.ofBits bits).toBits = bits := by
  have packed := pack_assemble (Sign.ofBitVec (@unpackSign .binary64 bits.toBitVec))
    (number_of_le number)
  have value := congrArg BitVec.toNat packed
  rw [toNat_packed, sign_toBitVec, toNat_sign, toNat_exponent, toNat_mantissa] at value
  have bound := bits.toBitVec.isLt
  apply UInt64.toNat_inj.mp
  refine value.trans ?_
  show _ = bits.toBitVec.toNat
  omega

theorem toNat_neg {number : Float} (small : magnitude number ≤ Double.infinity) :
    (-number).toBits.toNat =
      2 ^ 63 * (1 - number.toBits.toNat / 2 ^ 63) + magnitude number := by
  have packed := pack_assemble
    (-Sign.ofBitVec (@unpackSign .binary64 number.toBits.toBitVec)) (number_of_le small)
  have value := congrArg BitVec.toNat packed
  rw [toNat_packed, toNat_neg_sign, toNat_sign, toNat_exponent, toNat_mantissa, ← neg_assemble,
    ← unpack_eq] at value
  refine value.trans ?_
  rw [magnitude, Nat.pow_eq]
  show _ = 2 ^ 63 * (1 - number.toBits.toBitVec.toNat / 2 ^ 63) +
    number.toBits.toBitVec.toNat % 2 ^ 63
  omega

theorem isNegative_iff {number : Float} : isNegative number ↔ number.toBits.toNat / 2 ^ 63 = 1 := by
  have bound := number.toBits.toNat_lt
  rw [isNegative, decide_eq_true_iff, Nat.pow_eq]
  omega

theorem isFinite_assemble (sign : Sign) (exponent : BitVec 11) (mantissa : BitVec 52) :
    (assemble sign exponent mantissa).isFinite ↔ exponent ≠ -1#11 := by
  unfold assemble
  by_cases full : exponent = -1#11
  · rw [if_pos full]
    apply iff_of_false _ fun short => short full
    by_cases none : mantissa = 0#52
    · rw [if_pos none]
      exact Bool.false_ne_true
    · rw [if_neg none]
      exact Bool.false_ne_true
  · rw [if_neg full]
    apply iff_of_true _ full
    by_cases zero : exponent = 0#11
    · rw [if_pos zero]
      by_cases none : mantissa = 0#52
      · rw [dif_pos none]
        rfl
      · rw [dif_neg none]
        rfl
    · rw [if_neg zero]
      rfl

theorem isFinite_iff {number : Float} : number.isFinite ↔ magnitude number < Double.infinity := by
  have unpacked : number.isFinite =
      (unpack Format.binary64 number.toBits.toBitVec).isFinite := rfl
  have exponent : @unpackExponent .binary64 number.toBits.toBitVec = -1#11 ↔
      number.toBits.toNat / 2 ^ 52 % 2 ^ 11 = 2047 := by
    rw [← BitVec.toNat_inj, toNat_exponent]
    rfl
  have bound := number.toBits.toNat_lt
  have infinity : Double.infinity = 2047 * 2 ^ 52 := rfl
  rw [unpacked, unpack_eq, isFinite_assemble, Ne, exponent, magnitude, Nat.pow_eq, infinity]
  omega

/-- A double is known by its magnitude and its sign. -/
theorem eq_of_magnitude {first second : Float} (size : magnitude first = magnitude second)
    (sign : isNegative first = isNegative second) : first = second := by
  have bits : first.toBits = second.toBits := by
    have bound := first.toBits.toNat_lt
    have bound' := second.toBits.toNat_lt
    have signs : first.toBits.toNat / 2 ^ 63 = 1 ↔ second.toBits.toNat / 2 ^ 63 = 1 := by
      rw [← isNegative_iff, ← isNegative_iff, sign]
    apply UInt64.toNat_inj.mp
    simp only [magnitude, Nat.pow_eq] at size
    omega
  cases first with
  | ofModel first =>
    cases second with
    | ofModel second =>
      cases first
      cases second
      cases bits
      rfl

theorem magnitude_neg {number : Float} (small : magnitude number ≤ Double.infinity) :
    magnitude (-number) = magnitude number := by
  have value := toNat_neg small
  rw [magnitude, value, Nat.pow_eq, Nat.mul_add_mod]
  exact Nat.mod_eq_of_lt (Nat.mod_lt _ (by decide))

theorem isNegative_neg {number : Float} (small : magnitude number ≤ Double.infinity) :
    isNegative (-number) = !isNegative number := by
  have value := toNat_neg small
  have bound := number.toBits.toNat_lt
  have short : magnitude number < 2 ^ 63 := Nat.mod_lt _ (by decide)
  rw [Bool.eq_iff_iff, Bool.not_eq_true', ← Bool.not_eq_true, isNegative_iff, isNegative_iff, value]
  omega

end Lox.Number
