import Lox.Number.Text

/-! Magnitudes and the decimals that are read as them. A magnitude is found again from its units, so it
is read from every decimal of that many units, and from the one that is written for it. -/

namespace Lox

namespace Double

theorem binade_pos : 0 < binade := by decide

theorem units_subnormal {magnitude : Nat} (small : magnitude < binade) : units magnitude = magnitude :=
  if_pos small

theorem units_normal (exponent : Nat) {fraction : Nat} (small : fraction < binade) :
    units (binade * (exponent + 1) + fraction) = (binade + fraction) * Nat.pow 2 exponent := by
  have large : ¬ binade * (exponent + 1) + fraction < binade := by
    rw [Nat.mul_succ]
    omega
  rw [units, if_neg large, Nat.mul_add_mod, Nat.mod_eq_of_lt small, Nat.mul_add_div binade_pos,
    Nat.div_eq_of_lt small]
  rfl

/-- A magnitude has a leading bit of its own unless it is very small. -/
theorem eq_normal {magnitude : Nat} (large : ¬ magnitude < binade) :
    ∃ exponent fraction, fraction < binade ∧ magnitude = binade * (exponent + 1) + fraction := by
  have positive : 1 ≤ magnitude / binade :=
    (Nat.one_le_div_iff binade_pos).mpr (Nat.le_of_not_lt large)
  refine ⟨magnitude / binade - 1, magnitude % binade, Nat.mod_lt _ binade_pos, ?_⟩
  rw [Nat.sub_add_cancel positive, Nat.div_add_mod]

/-- A significand of fifty-three bits, scaled by a power of two. -/
theorem log2_scaled (exponent : Nat) {fraction : Nat} (small : fraction < binade) :
    ((binade + fraction) * Nat.pow 2 exponent).log2 = 52 + exponent := by
  have filled : binade + fraction ≠ 0 := Nat.ne_of_gt (Nat.add_pos_left binade_pos fraction)
  have scale : 0 < 2 ^ exponent := Nat.pow_pos Nat.two_pos
  rw [Nat.pow_eq, Nat.log2_eq_iff (Nat.mul_ne_zero filled (Nat.ne_of_gt scale)), Nat.pow_succ,
    Nat.pow_add]
  constructor
  · exact Nat.mul_le_mul_right _ (Nat.le_add_right _ _)
  · have room : 2 ^ 52 * 2 ^ exponent * 2 = (binade + binade) * 2 ^ exponent := by
      rw [Nat.mul_right_comm]
      rfl
    rw [room]
    exact Nat.mul_lt_mul_of_pos_right (Nat.add_lt_add_left small binade) scale

/-- A magnitude is the greatest of at most as many units as it has. -/
theorem below_units (magnitude : Nat) : below (units magnitude) = magnitude := by
  by_cases small : magnitude < binade
  · have log : magnitude.log2 < 53 := by
      rcases Nat.eq_zero_or_pos magnitude with rfl | positive
      · decide
      · rw [Nat.log2_lt (Nat.ne_of_gt positive)]
        exact Nat.lt_trans small (by decide)
    rw [units_subnormal small, below, Nat.sub_eq_zero_of_le (Nat.le_of_lt_succ log)]
    simp [Nat.pow]
  · obtain ⟨exponent, fraction, short, rfl⟩ := eq_normal small
    have scale : 0 < Nat.pow 2 exponent := Nat.pow_pos Nat.two_pos
    simp only [below]
    rw [units_normal exponent short, log2_scaled exponent short, Nat.add_sub_cancel_left,
      Nat.mul_div_cancel _ scale, ← Nat.add_assoc, Nat.mul_comm exponent, Nat.mul_succ]

theorem units_lt_succ (magnitude : Nat) : units magnitude < units (magnitude + 1) := by
  by_cases small : magnitude < binade
  · rw [units_subnormal small]
    rcases Nat.lt_or_eq_of_le (Nat.succ_le_of_lt small) with small' | least
    · rw [units_subnormal small']
      exact Nat.lt_succ_self _
    · have first := units_normal 0 binade_pos
      rw [Nat.add_zero, Nat.zero_add, Nat.mul_one] at first
      rw [← Nat.succ_eq_add_one, least, first]
      exact Nat.lt_of_lt_of_eq small (Nat.mul_one binade).symm
  · obtain ⟨exponent, fraction, short, rfl⟩ := eq_normal small
    have scale : 0 < Nat.pow 2 exponent := Nat.pow_pos Nat.two_pos
    rw [units_normal exponent short]
    rcases Nat.lt_or_eq_of_le (Nat.succ_le_of_lt short) with next | last
    · rw [Nat.add_assoc, units_normal exponent next]
      exact Nat.mul_lt_mul_of_pos_right (Nat.lt_succ_self _) scale
    · have least := units_normal (exponent + 1) binade_pos
      rw [Nat.add_zero, Nat.add_zero] at least
      have twice : Nat.pow 2 (exponent + 1) = 2 * Nat.pow 2 exponent := Nat.pow_succ'
      rw [Nat.add_assoc, ← Nat.succ_eq_add_one fraction, last, ← Nat.mul_succ, least, twice,
        Nat.add_zero, ← Nat.mul_assoc, Nat.mul_two]
      exact Nat.mul_lt_mul_of_pos_right (Nat.add_lt_add_left short binade) scale

end Double

namespace Decimal

variable {decimal : Decimal} {magnitude : Nat} {exponent : Int}

/-- A decimal of just the units of a magnitude is read as that magnitude. -/
theorem nearest_le (decimal : Decimal) : decimal.nearest ≤ Double.infinity := by
  unfold nearest
  simp only
  split
  next => exact Nat.le_refl _
  next inside =>
    have below := Nat.lt_of_not_le inside
    split
    · exact Nat.le_of_lt below
    · exact below
    · split
      · exact Nat.le_of_lt below
      · exact below

theorem nearest_exact (finite : magnitude < Double.infinity)
    (exact : decimal.digits * Double.one = Double.units magnitude * Nat.pow 10 decimal.places) :
    decimal.nearest = magnitude := by
  have scale : 0 < Nat.pow 10 decimal.places := Nat.pow_pos (by decide)
  have low : Double.below (decimal.digits * Double.one / Nat.pow 10 decimal.places) = magnitude := by
    rw [exact, Nat.mul_div_cancel _ scale, Double.below_units]
  have under : compare (2 * (decimal.digits * Double.one))
      ((Double.units magnitude + Double.units (magnitude + 1)) * Nat.pow 10 decimal.places) = .lt := by
    rw [exact, Nat.compare_eq_lt, ← Nat.mul_assoc, Nat.two_mul]
    exact Nat.mul_lt_mul_of_pos_right (Nat.add_lt_add_left (Double.units_lt_succ _) _) scale
  simp only [nearest, low, if_neg (Nat.not_le_of_lt finite), under]

theorem nearest_onGrid? (found : onGrid? magnitude exponent = some decimal) :
    decimal.nearest = magnitude := by
  unfold onGrid? at found
  extract_lets amount step low high order at found
  clear_value order
  have read := List.find?_some found
  exact beq_iff_eq.mp read

/-- A magnitude written out to as many places as a unit has. -/
theorem nearest_written (finite : magnitude < Double.infinity) {places : Nat}
    (half : Double.one = Nat.pow 2 places) :
    nearest ⟨Double.units magnitude * Nat.pow 5 places, places⟩ = magnitude := by
  refine nearest_exact finite ?_
  rw [half, Nat.mul_assoc]
  exact congrArg (Double.units magnitude * ·) (Nat.mul_pow 5 2 places).symm

theorem nearest_shortest (finite : magnitude < Double.infinity) :
    (shortest magnitude).nearest = magnitude := by
  simp only [shortest]
  cases found : (List.range 20).findSome? fun (step : Nat) =>
      onGrid? magnitude (ceilingExponent magnitude - step) with
  | some decimal =>
    obtain ⟨step, -, reads⟩ := List.exists_of_findSome?_eq_some found
    exact nearest_onGrid? reads
  | none =>
    have half : Double.one = Nat.pow 2 1074 := by unfold Double.one; rfl
    rw [Option.getD_none, Decimal.exact, nearest_written finite half]

/-- The decimal that is written for a magnitude is read as that magnitude. -/
theorem nearest_canonical (finite : magnitude < Double.infinity) :
    (canonical magnitude).nearest = magnitude := by
  simp only [canonical]
  split
  next whole =>
    refine nearest_exact finite ?_
    exact (Nat.div_mul_cancel (Nat.dvd_of_mod_eq_zero whole.1)).trans (Nat.mul_one _).symm
  next => exact nearest_shortest finite

end Decimal
end Lox
