import Lox.Proofs.Semantics

/-! The operations of the interpreter do what the rules for operators, variables and parameters
say. Each lemma here is about one operation; evaluation as a whole builds on them. -/

namespace Lox.Semantics

theorem truthy_iff (value : Value) : Truthy value ↔ value.isTruthy = true := by
  cases value with
  | bool value => cases value <;> simp [Truthy, Value.isTruthy]
  | nil | number | string | function | native => simp [Truthy, Value.isTruthy]

theorem falsy_iff (value : Value) : Falsy value ↔ ¬ value.isTruthy = true := by
  cases value with
  | bool value => cases value <;> simp [Falsy, Value.isTruthy]
  | nil | number | string | function | native => simp [Falsy, Value.isTruthy]

theorem same_iff (left right : Value) : Same left right ↔ left.equals right = true := by
  constructor
  · intro same
    cases same with
    | number equal => exact equal
    | function made => simp [Value.equals, made]
    | nil | bool | string | native => simp [Value.equals]
  · intro equal
    unfold Value.equals at equal
    split at equal
    · exact .nil
    · cases eq_of_beq equal
      exact .bool
    · exact .number equal
    · cases eq_of_beq equal
      exact .string
    · exact .function (eq_of_beq equal)
    · cases eq_of_beq equal
      exact .native
    · cases equal

theorem unaryGives_iff {operator : UnaryOperator} {operand : Value}
    {result : Except RuntimeFault Value} :
    UnaryGives operator operand result ↔ operator.apply operand = result := by
  constructor
  · intro gives
    cases gives with
    | negate => rfl
    | negateOther other => cases operand <;> simp_all [UnaryOperator.apply]
    | notTrue holds => simp [UnaryOperator.apply, (truthy_iff operand).mp holds]
    | notFalse fails => simp [UnaryOperator.apply, (falsy_iff operand).mp fails]
  · rintro rfl
    cases operator with
    | negate =>
      cases operand with
      | number => exact .negate
      | nil | bool | string | function | native => exact .negateOther (by simp)
    | not =>
      cases truth : operand.isTruthy with
      | true =>
        simpa [UnaryOperator.apply, truth] using UnaryGives.notTrue ((truthy_iff operand).mpr truth)
      | false =>
        have fails := (falsy_iff operand).mpr (by simp [truth])
        simpa [UnaryOperator.apply, truth] using UnaryGives.notFalse fails

theorem Calculates.comparing {operator : BinaryOperator} {left right : Float}
    {result : Except RuntimeFault Value} (calculates : Calculates operator left right result) :
    operator ≠ .equal ∧ operator ≠ .notEqual := by
  cases calculates <;> simp

theorem calculates_iff {operator : BinaryOperator} {left right : Float}
    {result : Except RuntimeFault Value} (comparing : operator ≠ .equal ∧ operator ≠ .notEqual) :
    Calculates operator left right result ↔ operator.calculate left right = result := by
  constructor
  · intro calculates
    cases calculates with
    | divide nonzero => simp [BinaryOperator.calculate, nonzero]
    | divideByZero zero => simp [BinaryOperator.calculate, zero]
    | add | subtract | multiply | less | lessEqual | greater | greaterEqual => rfl
  · rintro rfl
    cases operator with
    | equal => exact absurd rfl comparing.1
    | notEqual => exact absurd rfl comparing.2
    | divide =>
      cases zero : right == 0 with
      | true => simpa [BinaryOperator.calculate, zero] using Calculates.divideByZero zero
      | false => simpa [BinaryOperator.calculate, zero] using Calculates.divide zero
    | add => exact .add
    | subtract => exact .subtract
    | multiply => exact .multiply
    | less => exact .less
    | lessEqual => exact .lessEqual
    | greater => exact .greater
    | greaterEqual => exact .greaterEqual

theorem apply_other {operator : BinaryOperator} {left right : Value}
    (comparing : operator ≠ .equal ∧ operator ≠ .notEqual) (adding : operator ≠ .add)
    (numbers : ¬ BothNumbers left right) :
    operator.apply left right = .error (.typeError .numbers) := by
  unfold BinaryOperator.apply
  split
  · exact absurd rfl comparing.1
  · exact absurd rfl comparing.2
  · exact absurd rfl adding
  · exact absurd ⟨_, _, rfl, rfl⟩ numbers
  · exact absurd rfl adding
  · rfl

theorem apply_add_other {left right : Value} (numbers : ¬ BothNumbers left right)
    (strings : ¬ BothStrings left right) :
    BinaryOperator.add.apply left right = .error (.typeError .numbersOrStrings) := by
  unfold BinaryOperator.apply
  split <;> rename_i same
  · cases same
  · cases same
  · exact absurd ⟨_, _, rfl, rfl⟩ strings
  · exact absurd ⟨_, _, rfl, rfl⟩ numbers
  · rfl
  · exact absurd rfl (by assumption)

theorem apply_numbers {operator : BinaryOperator} {first second : Float}
    (comparing : operator ≠ .equal ∧ operator ≠ .notEqual) :
    operator.apply (.number first) (.number second) = operator.calculate first second := by
  cases operator with
  | equal => exact absurd rfl comparing.1
  | notEqual => exact absurd rfl comparing.2
  | _ => rfl

theorem binaryGives_apply (operator : BinaryOperator) (left right : Value) :
    BinaryGives operator left right (operator.apply left right) := by
  by_cases equality : operator = .equal ∨ operator = .notEqual
  · have decided := same_iff left right
    rcases equality with rfl | rfl <;> cases same : left.equals right <;>
      simp only [same, Bool.false_eq_true, iff_false, iff_true, BinaryOperator.apply] at decided ⊢
    · exact .unequal decided
    · exact .equal decided
    · exact .notEqual decided
    · exact .notUnequal decided
  · have comparing : operator ≠ .equal ∧ operator ≠ .notEqual := not_or.mp equality
    by_cases numbers : BothNumbers left right
    · obtain ⟨first, second, rfl, rfl⟩ := numbers
      exact .calculate ((calculates_iff comparing).mpr (apply_numbers comparing).symm)
    · by_cases adding : operator = .add
      · subst adding
        by_cases strings : BothStrings left right
        · obtain ⟨first, second, rfl, rfl⟩ := strings
          exact .join
        · rw [apply_add_other numbers strings]
          exact .addOther numbers strings
      · rw [apply_other comparing adding numbers]
        exact .other comparing adding numbers

theorem binaryGives_iff {operator : BinaryOperator} {left right : Value}
    {result : Except RuntimeFault Value} :
    BinaryGives operator left right result ↔ operator.apply left right = result := by
  constructor
  · intro gives
    cases gives with
    | equal same => simp [BinaryOperator.apply, (same_iff left right).mp same]
    | unequal different => simpa [BinaryOperator.apply] using mt (same_iff left right).mpr different
    | notEqual different => simpa [BinaryOperator.apply] using mt (same_iff left right).mpr different
    | notUnequal same => simp [BinaryOperator.apply, (same_iff left right).mp same]
    | join => rfl
    | calculate calculated =>
      have comparing := calculated.comparing
      exact (apply_numbers comparing).trans ((calculates_iff comparing).mp calculated)
    | addOther numbers strings => exact apply_add_other numbers strings
    | other comparing adding numbers => exact apply_other comparing adding numbers
  · rintro rfl
    exact binaryGives_apply operator left right

theorem resolves_iff {heap : Heap} {name : String} {inner owner : ScopeId}
    {binding : Option Value} :
    Resolves heap name inner owner binding ↔ heap.find name inner = .ok (owner, binding) := by
  constructor
  · intro resolves
    induction resolves with
    | here made bound =>
      rw [Heap.find]
      simp only [made, bound]
    | outside inside unbound _ ih =>
      rw [Heap.find]
      simp only [inside.made, unbound, inside.parent, inside.older, ite_true, ih]
  · fun_induction Heap.find heap name inner with
    | case1 inner missing => simp
    | case2 inner scope made found bound =>
      intro same
      obtain ⟨rfl, rfl⟩ : inner = owner ∧ found = binding := by simpa using same
      exact .here made bound
    | case3 inner scope made unbound last => simp
    | case4 inner scope made unbound outer parent older ih =>
      intro found
      exact .outside ⟨made, parent, older⟩ unbound (ih found)
    | case5 inner scope made unbound outer parent younger => simp

theorem unbound_iff {heap : Heap} {name : String} {inner : ScopeId} :
    Unbound heap name inner ↔ heap.find name inner = .error .undefined := by
  constructor
  · intro missing
    induction missing with
    | outermost made unbound last =>
      rw [Heap.find]
      simp only [made, unbound, last]
    | outside inside unbound _ ih =>
      rw [Heap.find]
      simp only [inside.made, unbound, inside.parent, inside.older, ite_true, ih]
  · fun_induction Heap.find heap name inner with
    | case1 inner missing => simp
    | case2 inner scope made found bound => simp
    | case3 inner scope made unbound last => exact fun _ => .outermost made unbound last
    | case4 inner scope made unbound outer parent older ih =>
      intro missing
      exact .outside ⟨made, parent, older⟩ unbound (ih missing)
    | case5 inner scope made unbound outer parent younger => simp

/-- Looking for a binding fails in two ways only: none has the name, or a scope is missing. -/
theorem find_error {heap : Heap} {name : String} {inner : ScopeId} {error : ScopeError}
    (failed : heap.find name inner = .error error) : error = .undefined ∨ error = .dangling := by
  fun_induction Heap.find heap name inner with
  | case1 inner missing => exact .inr (Except.error.inj failed).symm
  | case2 inner scope made found bound => cases failed
  | case3 inner scope made unbound last => exact .inl (Except.error.inj failed).symm
  | case4 inner scope made unbound outer parent older ih => exact ih failed
  | case5 inner scope made unbound outer parent younger => exact .inr (Except.error.inj failed).symm

/-- A scope made with its bindings is an empty scope made and then filled. -/
theorem define_push (heap : Heap) (bindings : Bindings) (parent : Option ScopeId) (name : String)
    (value : Value) :
    Heap.define (heap.push ⟨bindings, parent⟩) name value heap.size =
      heap.push ⟨bindings.set name (some value), parent⟩ := by
  apply Array.ext_getElem?
  intro index
  simp only [Heap.define, Heap.bind, Array.getElem?_modify, Array.getElem?_push]
  split
  · simp_all
  · split <;> simp_all

/-- A call makes its scope with the parameters in it. -/
theorem receive_enter (state : State) (params : List String) (arguments : List Value)
    (parent : ScopeId) : (state.enter parent).receive params arguments state.fresh =
      { state with heap := state.heap.push ⟨(params.zip arguments).foldl
        (fun bindings pair => Bindings.set pair.1 (some pair.2) bindings) [], some parent⟩ } := by
  have filled : ∀ (pairs : List (String × Value)) (bindings : Bindings),
      pairs.foldl (fun later pair => State.define later pair.1 pair.2 state.fresh)
        { state with heap := state.heap.push ⟨bindings, some parent⟩ } =
      { state with heap := state.heap.push ⟨pairs.foldl
        (fun bindings pair => Bindings.set pair.1 (some pair.2) bindings) bindings, some parent⟩ } := by
    intro pairs
    induction pairs with
    | nil => exact fun _ => rfl
    | cons pair pairs ih =>
      intro bindings
      rw [List.foldl_cons, State.define, State.fresh, define_push]
      exact ih _
  exact filled (params.zip arguments) []

end Lox.Semantics
