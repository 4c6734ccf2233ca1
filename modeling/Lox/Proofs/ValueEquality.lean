import Lox.Value

/-! What `==` is between values. It is symmetric and transitive, and every value equals itself but the
number that is none. Zero equals zero with the other sign, and a function those of its number. -/

namespace Lox

namespace Number
open Float.Model UnpackedFloat

/-- A number with one zero in place of both. -/
def unsigned (number : Float) : UnpackedFloat :=
  match number.toModel.unpack with
  | .zero _ => .zero .positive
  | other => other

theorem compare_eq_iff (first second : UnpackedFloat) : first.compare second = some .eq ↔
    first ≠ .notANumber ∧
      (first = second ∨ ∃ sign other, first = .zero sign ∧ second = .zero other) := by
  have sizes (left right : Int) (less more : Nat) :
      (compare left right).then (compare less more) = .eq ↔ left = right ∧ less = more := by
    rw [Ordering.then_eq_eq, Int.compare_eq_eq, Nat.compare_eq_eq]
  cases first with
  | notANumber => exact iff_of_false (by rintro ⟨⟩) fun ⟨number, _⟩ => number rfl
  | infinity sign =>
    cases second with
    | infinity other =>
      cases sign <;> cases other
      case negative.negative | positive.positive => exact iff_of_true rfl ⟨by rintro ⟨⟩, .inl rfl⟩
      all_goals
        refine iff_of_false (by rintro ⟨⟩) ?_
        rintro ⟨-, same | ⟨_, _, same, -⟩⟩ <;> cases same
    | notANumber | zero | finite =>
      refine iff_of_false (by cases sign <;> rintro ⟨⟩) ?_
      rintro ⟨-, same | ⟨_, _, same, -⟩⟩ <;> cases same
  | zero sign =>
    cases second with
    | zero => exact iff_of_true rfl ⟨by rintro ⟨⟩, .inr ⟨_, _, rfl, rfl⟩⟩
    | notANumber =>
      refine iff_of_false (by rintro ⟨⟩) ?_
      rintro ⟨-, same | ⟨_, _, -, same⟩⟩ <;> cases same
    | infinity other | finite other =>
      refine iff_of_false (by cases other <;> rintro ⟨⟩) ?_
      rintro ⟨-, same | ⟨_, _, -, same⟩⟩ <;> cases same
  | finite sign mantissa exponent filled =>
    have nonzero (second : UnpackedFloat) : ¬ ∃ left right,
        finite sign mantissa exponent filled = .zero left ∧ second = .zero right := by
      rintro ⟨_, _, ⟨⟩, -⟩
    have number : finite sign mantissa exponent filled ≠ .notANumber := by rintro ⟨⟩
    rw [and_iff_right number, or_iff_left (nonzero _)]
    cases second with
    | notANumber => exact iff_of_false (by rintro ⟨⟩) (by rintro ⟨⟩)
    | zero => exact iff_of_false (by cases sign <;> rintro ⟨⟩) (by rintro ⟨⟩)
    | infinity other => exact iff_of_false (by cases other <;> rintro ⟨⟩) (by rintro ⟨⟩)
    | finite other =>
      -- Exponent and mantissa are compared one after the other, the other way round below zero.
      rw [finite.injEq]
      cases sign <;> cases other
      all_goals
        change some _ = some Ordering.eq ↔ _
        simp [sizes, and_comm]

theorem isNaN_iff {number : Float} : number.isNaN = true ↔ unsigned number = .notANumber := by
  change number.toModel.unpack.isNaN = true ↔ _
  unfold unsigned
  cases number.toModel.unpack with
  | notANumber => exact iff_of_true rfl rfl
  | infinity | zero | finite => exact iff_of_false Bool.false_ne_true fun same => by cases same

/-- Numbers compare by what they are without the sign of a zero. -/
theorem beq_iff {first second : Float} : (first == second) = true ↔
    unsigned first ≠ .notANumber ∧ unsigned first = unsigned second := by
  change (first.toModel.unpack.compare second.toModel.unpack == some .eq) = true ↔ _
  rw [beq_iff_eq, compare_eq_iff]
  unfold unsigned
  generalize first.toModel.unpack = left
  generalize second.toModel.unpack = right
  constructor
  · rintro ⟨number, rfl | ⟨sign, other, rfl, rfl⟩⟩
    · refine ⟨?_, rfl⟩
      cases left with
      | zero sign => rintro ⟨⟩
      | _ => exact number
    · exact ⟨by rintro ⟨⟩, rfl⟩
  · rintro ⟨number, same⟩
    cases left with
    | notANumber => exact absurd rfl number
    | zero sign =>
      cases right with
      | zero other => exact ⟨by rintro ⟨⟩, .inr ⟨sign, other, rfl, rfl⟩⟩
      | _ => cases same
    | infinity | finite =>
      cases right with
      | zero other => cases same
      | _ => exact ⟨number, .inl same⟩

end Number

namespace Value

/-- The pairs of values that `==` holds of. -/
inductive Alike : Value → Value → Prop where
  | nil : Alike .nil .nil
  | bool (value : Bool) : Alike (.bool value) (.bool value)
  | number {first second : Float} : (first == second) = true → Alike (.number first) (.number second)
  | string (contents : String) : Alike (.string contents) (.string contents)
  | function {first second : Closure} : first.id = second.id →
    Alike (.function first) (.function second)
  | native (native : Native) : Alike (.native native) (.native native)

theorem equals_iff {first second : Value} : first.equals second = true ↔ first.Alike second := by
  constructor
  · intro same
    cases first <;> cases second <;> simp only [equals, Bool.false_eq_true] at same
    case nil.nil => exact .nil
    case number.number => exact .number same
    case function.function => exact .function (eq_of_beq same)
    all_goals
      cases eq_of_beq same
      constructor
  · rintro (_ | _ | same | _ | same | _)
    case number => exact same
    case function => exact beq_iff_eq.mpr same
    all_goals simp only [equals, BEq.rfl]

variable {first second third : Value}

theorem Alike.symm (alike : first.Alike second) : second.Alike first := by
  cases alike with
  | nil => exact .nil
  | bool value => exact .bool value
  | number same =>
    obtain ⟨number, same⟩ := Number.beq_iff.mp same
    exact .number (Number.beq_iff.mpr ⟨same ▸ number, same.symm⟩)
  | string contents => exact .string contents
  | function same => exact .function same.symm
  | native native => exact .native native

theorem Alike.trans (alike : first.Alike second) (also : second.Alike third) :
    first.Alike third := by
  cases alike with
  | nil | bool | string | native => exact also
  | number same =>
    cases also with
    | number again =>
      obtain ⟨number, same⟩ := Number.beq_iff.mp same
      obtain ⟨-, again⟩ := Number.beq_iff.mp again
      exact .number (Number.beq_iff.mpr ⟨number, same.trans again⟩)
  | function same =>
    cases also with
    | function again => exact .function (same.trans again)

theorem Alike.refl_iff {value : Value} :
    value.Alike value ↔ ∀ number, value = .number number → number.isNaN = false := by
  constructor
  · rintro alike number rfl
    cases alike with
    | number same =>
      rw [Bool.eq_false_iff, ne_eq, Number.isNaN_iff]
      exact (Number.beq_iff.mp same).1
  · intro number
    cases value with
    | nil => exact .nil
    | bool value => exact .bool value
    | number value =>
      have proper := number value rfl
      rw [Bool.eq_false_iff, ne_eq, Number.isNaN_iff] at proper
      exact .number (Number.beq_iff.mpr ⟨proper, rfl⟩)
    | string contents => exact .string contents
    | function closure => exact .function rfl
    | native native => exact .native native

/-- Values of two kinds are never alike. -/
theorem Alike.kind (alike : first.Alike second) : first.ctorIdx = second.ctorIdx := by
  cases alike <;> rfl

theorem Alike.string_iff {left right : String} :
    (Value.string left).Alike (.string right) ↔ left = right := by
  constructor
  · rintro ⟨⟩
    rfl
  · rintro rfl
    exact .string left

theorem Alike.function_iff {left right : Closure} :
    (Value.function left).Alike (.function right) ↔ left.id = right.id := by
  constructor
  · rintro (_ | _ | _ | _ | same | _)
    exact same
  · exact .function

end Value

/-- The `==` of programs gives true. -/
def Value.Equal (first second : Value) : Prop :=
  BinaryOperator.equal.apply first second = .ok (.bool true)

theorem Value.equal_iff {first second : Value} : first.Equal second ↔ first.Alike second := by
  rw [← Value.equals_iff]
  simp [Value.Equal, BinaryOperator.apply]

end Lox
