import Lox.Proofs.Magnitudes
import Mathlib.Algebra.Order.Archimedean.Basic
import Mathlib.Tactic.Linarith
import Mathlib.Tactic.Positivity

/-! Reading a decimal is rounding it correctly. What is read is the nearest double there is, and of
two that are equally near the even one. -/

namespace Lox
namespace Double

/-- The value that the bits of a magnitude stand for, an exponent above a fraction. That of infinity
goes on with the pattern, and so it is rounded to like a power of two. -/
def value (magnitude : Nat) : ℚ :=
  let exponent : ℕ := magnitude / 2 ^ 52
  let fraction : ℕ := magnitude % 2 ^ 52
  if exponent = 0 then fraction / 2 ^ 1074
  else (2 ^ 52 + fraction) * 2 ^ (exponent - 1) / 2 ^ 1074

/-- The magnitude is the nearest to an amount, the even one of two that are equally near. -/
structure Rounds (amount : ℚ) (magnitude : Nat) : Prop where
  real : magnitude ≤ infinity
  nearest : ∀ other ≤ infinity, |value magnitude - amount| ≤ |value other - amount|
  even : ∀ other ≤ infinity, |value magnitude - amount| = |value other - amount| →
    other = magnitude ∨ magnitude % 2 = 0

theorem value_eq (magnitude : Nat) : value magnitude = units magnitude / 2 ^ 1074 := by
  by_cases small : magnitude < binade
  · have none : magnitude / 2 ^ 52 = 0 := Nat.div_eq_of_lt small
    have whole : magnitude % 2 ^ 52 = magnitude := Nat.mod_eq_of_lt small
    simp only [value, none, whole, if_true, units_subnormal small]
  · have some : magnitude / 2 ^ 52 ≠ 0 := by
      rw [Nat.div_ne_zero_iff]
      exact ⟨by decide, Nat.le_of_not_lt small⟩
    have leading : ((binade : ℕ) : ℚ) = 2 ^ 52 := by norm_num [binade]
    have power : ((Nat.pow 2 (magnitude / binade - 1) : ℕ) : ℚ) = 2 ^ (magnitude / 2 ^ 52 - 1) := by
      simp only [Nat.pow_eq, Nat.cast_pow]
      rfl
    simp only [value, some, if_false, units, if_neg small, Nat.cast_mul, Nat.cast_add, leading, power]
    rfl

theorem units_strictMono : StrictMono units := strictMono_nat_of_lt_succ units_lt_succ

theorem units_succ_normal (exponent : Nat) {fraction : Nat} (small : fraction < binade) :
    units (binade * (exponent + 1) + fraction + 1) = (binade + fraction + 1) * Nat.pow 2 exponent := by
  rcases Nat.lt_or_eq_of_le (Nat.succ_le_of_lt small) with next | last
  · exact units_normal exponent next
  · have least := units_normal (exponent + 1) binade_pos
    have twice : Nat.pow 2 (exponent + 1) = 2 * Nat.pow 2 exponent := Nat.pow_succ'
    rw [Nat.add_assoc, Nat.add_assoc, ← Nat.succ_eq_add_one fraction, last, ← Nat.mul_succ]
    rw [Nat.add_zero, Nat.add_zero, twice, ← Nat.mul_assoc, Nat.mul_two] at least
    exact least

/-- An amount of units is at least that of the greatest magnitude below it, and less than that of
the next. -/
theorem below_spec (amount : Nat) :
    units (below amount) ≤ amount ∧ amount < units (below amount + 1) := by
  by_cases small : amount < binade
  · have log : amount.log2 - 52 = 0 := by
      rcases Nat.eq_zero_or_pos amount with rfl | positive
      · decide
      · have bits : amount.log2 < 53 :=
          (Nat.log2_lt (Nat.ne_of_gt positive)).mpr (Nat.lt_trans small (by decide))
        exact Nat.sub_eq_zero_of_le (Nat.le_of_lt_succ bits)
    have itself : below amount = amount := by simp [below, log]
    have next := units_lt_succ amount
    rw [units_subnormal small] at next
    rw [itself, units_subnormal small]
    exact ⟨Nat.le_refl _, next⟩
  · have filled : amount ≠ 0 := by
      rintro rfl
      exact small binade_pos
    have large : 52 ≤ amount.log2 := (Nat.le_log2 filled).mpr (Nat.le_of_not_lt small)
    obtain ⟨shift, log⟩ := Nat.exists_eq_add_of_le large
    have scale : 0 < Nat.pow 2 shift := Nat.pow_pos Nat.two_pos
    -- What is left of the amount when it is scaled has fifty-three bits.
    have least : binade ≤ amount / Nat.pow 2 shift := by
      rw [Nat.le_div_iff_mul_le scale]
      exact (Nat.pow_add 2 52 shift) ▸ log ▸ Nat.log2_self_le filled
    have greatest : amount / Nat.pow 2 shift < 2 * binade := by
      rw [Nat.div_lt_iff_lt_mul scale]
      have bound : amount < 2 ^ (amount.log2 + 1) := Nat.lt_log2_self
      have power : 2 ^ (amount.log2 + 1) = 2 * binade * Nat.pow 2 shift := by
        rw [log, Nat.pow_succ', Nat.pow_add, ← Nat.mul_assoc]
        rfl
      exact power ▸ bound
    obtain ⟨fraction, leading⟩ := Nat.exists_eq_add_of_le least
    have short : fraction < binade := by omega
    have found : below amount = binade * (shift + 1) + fraction := by
      simp only [below, log, Nat.add_sub_cancel_left, leading]
      ring
    rw [found, units_normal shift short, units_succ_normal shift short, ← leading]
    exact ⟨Nat.div_mul_le_self _ _, (Nat.div_lt_iff_lt_mul scale).mp (Nat.lt_succ_self _)⟩

theorem units_lt {first second : ℕ} (less : first < second) :
    (units first : ℚ) < units second := by
  exact_mod_cast units_strictMono less

theorem units_le {first second : ℕ} (less : first ≤ second) :
    (units first : ℚ) ≤ units second := by
  exact_mod_cast units_strictMono.monotone less

section
variable {amount : ℚ} {low other : ℕ}

/-- The last magnitude up to an amount is nearer to it than the next. -/
theorem nearest_low (under : units low ≤ amount)
    (near : 2 * amount < units low + units (low + 1)) (differs : other ≠ low) :
    |units low - amount| < |units other - amount| := by
  rw [abs_of_nonpos (sub_nonpos.mpr under)]
  rcases Nat.lt_or_gt_of_ne differs with less | more
  · have apart := units_lt less
    have beyond := neg_le_abs (units other - amount)
    linarith
  · have apart := units_le (Nat.succ_le_of_lt more)
    have beyond := le_abs_self (units other - amount)
    rw [Nat.succ_eq_add_one] at apart
    linarith

/-- The first magnitude above an amount is nearer to it than the one before. -/
theorem nearest_high (above : amount < units (low + 1))
    (near : units low + units (low + 1) < 2 * amount) (differs : other ≠ low + 1) :
    |units (low + 1) - amount| < |units other - amount| := by
  rw [abs_of_pos (sub_pos.mpr above)]
  rcases Nat.lt_or_gt_of_ne differs with less | more
  · have apart := units_le (Nat.le_of_lt_succ less)
    have beyond := neg_le_abs (units other - amount)
    linarith
  · have apart := units_lt more
    have beyond := le_abs_self (units other - amount)
    linarith

/-- Two magnitudes that an amount is right between. -/
theorem nearest_both (middle : 2 * amount = units low + units (low + 1)) (other : ℕ) :
    |units low - amount| ≤ |units other - amount| ∧
      |units (low + 1) - amount| ≤ |units other - amount| := by
  have step := units_lt low.lt_add_one
  have left : |units low - amount| = amount - units low := by
    rw [abs_sub_comm, abs_of_nonneg]
    linarith
  have right : |units (low + 1) - amount| = units (low + 1) - amount :=
    abs_of_nonneg (by linarith)
  rw [left, right]
  rcases Nat.lt_or_ge low other with more | less
  · have apart := units_le (Nat.succ_le_of_lt more)
    have beyond := le_abs_self (units other - amount)
    rw [Nat.succ_eq_add_one] at apart
    constructor <;> linarith
  · have apart := units_le less
    have beyond := neg_le_abs (units other - amount)
    constructor <;> linarith

end

namespace Rounds

variable {amount scaled : ℚ} {magnitude : ℕ}

/-- Magnitudes are as near in units as they are in value. -/
theorem distance (same : amount * 2 ^ 1074 = scaled) (magnitude : ℕ) :
    |value magnitude - amount| = |units magnitude - scaled| / 2 ^ 1074 := by
  have positive : (0 : ℚ) < 2 ^ 1074 := by positivity
  rw [value_eq, div_sub' positive.ne', abs_div, abs_of_pos positive, mul_comm, same]

theorem of_nearest (same : amount * 2 ^ 1074 = scaled) (real : magnitude ≤ infinity)
    (nearest : ∀ other ≤ infinity, other ≠ magnitude →
      |units magnitude - scaled| < |units other - scaled|) : Rounds amount magnitude := by
  have positive : (0 : ℚ) < 2 ^ 1074 := by positivity
  have nearer (other : ℕ) (small : other ≤ infinity) (differs : other ≠ magnitude) :
      |value magnitude - amount| < |value other - amount| := by
    rw [distance same, distance same]
    exact div_lt_div_of_pos_right (nearest other small differs) positive
  refine ⟨real, fun other small => ?_, fun other small same => ?_⟩
  · rcases eq_or_ne other magnitude with rfl | differs
    · exact le_rfl
    · exact (nearer other small differs).le
  · exact .inl (by_contra fun differs => (nearer other small differs).ne same)

theorem of_even (same : amount * 2 ^ 1074 = scaled) (real : magnitude ≤ infinity)
    (even : magnitude % 2 = 0)
    (nearest : ∀ other : ℕ, |units magnitude - scaled| ≤ |units other - scaled|) :
    Rounds amount magnitude := by
  have positive : (0 : ℚ) < 2 ^ 1074 := by positivity
  refine ⟨real, fun other _ => ?_, fun _ _ _ => .inr even⟩
  rw [distance same, distance same]
  exact div_le_div_of_nonneg_right (nearest other) positive.le

end Rounds
end Double

namespace Decimal

/-- What a decimal stands for. -/
def amount (decimal : Decimal) : ℚ := decimal.digits / 10 ^ decimal.places

variable (decimal : Decimal)

theorem amount_scaled {places : ℕ} (half : Double.one = Nat.pow 2 places) :
    decimal.amount * 2 ^ places =
      (decimal.digits * Double.one : ℕ) / (Nat.pow 10 decimal.places : ℕ) := by
  rw [amount, half, Nat.cast_mul, Nat.pow_eq, Nat.pow_eq, Nat.cast_pow, Nat.cast_pow, Nat.cast_ofNat,
    Nat.cast_ofNat]
  exact div_mul_eq_mul_div ..

/-- Decimals are rounded correctly. -/
theorem nearest_rounds : Double.Rounds decimal.amount decimal.nearest := by
  obtain ⟨under, above⟩ := Double.below_spec
    (decimal.digits * Double.one / Nat.pow 10 decimal.places)
  have scale : 0 < Nat.pow 10 decimal.places := Nat.pow_pos (by decide)
  have half : Double.one = Nat.pow 2 1074 := by unfold Double.one; rfl
  have same := decimal.amount_scaled half
  simp only [nearest]
  generalize Double.below (decimal.digits * Double.one / Nat.pow 10 decimal.places) = low at *
  generalize decimal.digits * Double.one = total at *
  generalize Nat.pow 10 decimal.places = power at *
  have positive : (0 : ℚ) < power := by exact_mod_cast scale
  -- The doubles around the whole part of the quotient are those around the quotient itself.
  have under : (Double.units low : ℚ) ≤ total / power := by
    rw [le_div_iff₀ positive]
    exact_mod_cast (Nat.le_div_iff_mul_le scale).mp under
  have above : (total / power : ℚ) < Double.units (low + 1) := by
    rw [div_lt_iff₀ positive]
    exact_mod_cast (Nat.div_lt_iff_lt_mul scale).mp above
  split
  next large =>
    refine .of_nearest same le_rfl fun other small differs => ?_
    have below := Double.units_le large
    have less := Double.units_lt (lt_of_le_of_ne small differs)
    rw [abs_of_nonpos (by linarith), abs_of_nonpos (by linarith)]
    linarith
  next inside =>
    have real : low + 1 ≤ Double.infinity := Nat.lt_of_not_le inside
    split
    next less =>
      have near : 2 * (total / power : ℚ) < Double.units low + Double.units (low + 1) := by
        rw [← mul_div_assoc, div_lt_iff₀ positive]
        exact_mod_cast Nat.compare_eq_lt.mp less
      exact .of_nearest same (Nat.le_of_lt real) fun _ _ => Double.nearest_low under near
    next more =>
      have near : (Double.units low + Double.units (low + 1) : ℚ) < 2 * (total / power) := by
        rw [← mul_div_assoc, lt_div_iff₀ positive]
        exact_mod_cast Nat.compare_eq_gt.mp more
      exact .of_nearest same real fun _ _ => Double.nearest_high above near
    next equal =>
      have middle : 2 * (total / power : ℚ) = Double.units low + Double.units (low + 1) := by
        rw [← mul_div_assoc, div_eq_iff positive.ne']
        exact_mod_cast Nat.compare_eq_eq.mp equal
      have both := Double.nearest_both middle
      split
      next even => exact .of_even same (Nat.le_of_lt real) even fun other => (both other).1
      next odd => exact .of_even same real (by omega) fun other => (both other).2

end Decimal
end Lox
