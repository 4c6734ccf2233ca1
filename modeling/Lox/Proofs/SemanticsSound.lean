import Lox.Proofs.RunCongruence
import Lox.Proofs.SemanticsOperations

/-! Whatever a run of the interpreter comes to, the rules derive. The induction is on the budget:
every part of the evaluator leads only to states and results that a derivation leads to, and it
leaves the depth of calls as it found it. -/

namespace Lox.Semantics
open Interpreter

/-- The machine that holds this state, at a depth of calls. -/
def State.machine (state : State) (depth : Nat) : Machine :=
  ⟨state.heap, state.printed, depth, state.functions, state.readings⟩

theorem State.machine_inj {first second : State} {depth : Nat}
    (same : first.machine depth = second.machine depth) : first = second := by
  obtain ⟨heap, printed, functions, readings⟩ := first
  obtain ⟨rfl, rfl, -, rfl, rfl⟩ := Machine.mk.inj same
  rfl

/-- A call ends at its own depth when its body ends one level deeper. -/
theorem inFrame_ended {frame : Frame} {body : Run Signal} {state after : State} {depth : Nat}
    {result : Except RuntimeError Signal}
    (ran : body (state.machine (depth + 1)) = Run.ended result (after.machine (depth + 1))) :
    Run.inFrame frame body (state.machine depth) =
      Run.ended (returned frame result) (after.machine depth) := by
  simp only [State.machine] at ran
  cases result with
  | ok signal =>
    cases signal <;> simp only [Run.inFrame, State.machine, ran, Run.ended, Run.finish] <;> rfl
  | error error =>
    simp only [Run.inFrame, State.machine, ran, Run.ended]
    rfl

/-- When the run comes to an end, it does so at its own depth and as the relation says. -/
def Leads {α : Type} (run : Run α) (depth : Nat) (state : State)
    (relation : State → Except RuntimeError α → Prop) : Prop :=
  ∀ result last, run (state.machine depth) = Run.ended result last →
    ∃ after, last = State.machine after depth ∧ relation after result

namespace Leads

variable {α β : Type} {depth line : Nat} {scope : ScopeId} {state : State} {name : String}

theorem of_ended {run : Run α} {result : Except RuntimeError α} {after : State}
    {relation : State → Except RuntimeError α → Prop}
    (ran : run (state.machine depth) = Run.ended result (after.machine depth))
    (holds : relation after result) : Leads run depth state relation := by
  intro other last ended
  rw [ran] at ended
  cases result <;> cases other <;> cases ended <;> exact ⟨after, rfl, holds⟩

theorem of_ok {run : Run α} {value : α} {after : State}
    {relation : State → Except RuntimeError α → Prop}
    (ran : run (state.machine depth) = .ok value (after.machine depth))
    (holds : relation after (.ok value)) : Leads run depth state relation :=
  of_ended (ran.trans rfl) holds

theorem of_failed {run : Run α} {error : RuntimeError} {after : State}
    {relation : State → Except RuntimeError α → Prop}
    (ran : run (state.machine depth) = .error (.failed error) (after.machine depth))
    (holds : relation after (.error error)) : Leads run depth state relation :=
  of_ended (ran.trans rfl) holds

/-- A run without an outcome leads nowhere. -/
theorem of_stuck {run : Run α} {stop : Stop} {last : Machine}
    {relation : State → Except RuntimeError α → Prop}
    (ran : run (state.machine depth) = .error stop last) (stuck : ∀ error, stop ≠ .failed error) :
    Leads run depth state relation := by
  intro result end' ended
  rw [ran] at ended
  obtain ⟨error, _, failed, _⟩ := Run.ended_eq_error ended.symm
  exact absurd failed (stuck error)

theorem mono {run : Run α} {relation weaker : State → Except RuntimeError α → Prop}
    (leads : Leads run depth state relation)
    (implies : ∀ after result, relation after result → weaker after result) :
    Leads run depth state weaker := by
  intro result last ended
  obtain ⟨after, same, holds⟩ := leads result last ended
  exact ⟨after, same, implies after result holds⟩

theorem bind {run : Run α} {next : α → Run β} {relation : State → Except RuntimeError α → Prop}
    {final : State → Except RuntimeError β → Prop} (first : Leads run depth state relation)
    (goesOn : ∀ value middle, relation middle (.ok value) → Leads (next value) depth middle final)
    (stops : ∀ error after, relation after (.error error) → final after (.error error)) :
    Leads (run >>= next) depth state final := by
  intro result last ended
  cases ran : run (state.machine depth) with
  | ok value middle =>
    obtain ⟨middle, rfl, holds⟩ := first (.ok value) middle ran
    rw [Sequencing.bind_ok ran] at ended
    exact goesOn value middle holds result last ended
  | error stop middle =>
    rw [Sequencing.bind_error ran] at ended
    obtain ⟨error, rfl, rfl, rfl⟩ := Run.ended_eq_error ended.symm
    obtain ⟨after, same, holds⟩ := first (.error error) last ran
    exact ⟨after, same, stops error after holds⟩

/-- What a check comes to: a fact to go on with, or the error of the whole. -/
def Checks (passed : State → α → Prop) (final : State → Except RuntimeError β → Prop)
    (after : State) : Except RuntimeError α → Prop
  | .ok value => passed after value
  | .error error => final after (.error error)

theorem check {run : Run α} {next : α → Run β} {passed : State → α → Prop}
    {final : State → Except RuntimeError β → Prop}
    (first : Leads run depth state (Checks passed final))
    (goesOn : ∀ value middle, passed middle value → Leads (next value) depth middle final) :
    Leads (run >>= next) depth state final :=
  first.bind goesOn fun _ _ failed => failed

variable {relation : State → Except RuntimeError α → Prop}

theorem pure {value : α} (holds : relation state (.ok value)) :
    Leads (Pure.pure value) depth state relation :=
  of_ok rfl holds

theorem fail {fault : RuntimeFault} (holds : relation state (.error (.ofFault line fault))) :
    Leads (Run.fail line fault) depth state relation :=
  of_failed rfl holds

/-- Nothing after an error is run. -/
theorem failing {fault : RuntimeFault} {next : α → Run β}
    {relation : State → Except RuntimeError β → Prop}
    (holds : relation state (.error (.ofFault line fault))) :
    Leads (Run.fail line fault >>= next) depth state relation :=
  of_failed rfl holds

theorem lift {result : Except RuntimeFault α} (holds : relation state (onLine line result)) :
    Leads (Run.lift line result) depth state relation := by
  cases result with
  | ok value => exact pure holds
  | error fault => exact fail holds

theorem get {relation : State → Except RuntimeError Value → Prop}
    (found : ∀ owner value, Resolves state.heap name scope owner (some value) →
      relation state (.ok value))
    (uninitialized : ∀ owner, Resolves state.heap name scope owner none →
      relation state (.error (.ofFault line (.uninitializedVariable name))))
    (undefined : Unbound state.heap name scope →
      relation state (.error (.ofFault line (.undefinedVariable name)))) :
    Leads (Run.get line name scope) depth state relation := by
  cases looked : state.heap.find name scope with
  | ok binding =>
    obtain ⟨owner, binding⟩ := binding
    cases binding with
    | some value =>
      refine of_ok ?_ (found owner value (resolves_iff.mpr looked))
      simp only [Run.get, State.machine, Heap.get, looked]
    | none =>
      refine of_failed ?_ (uninitialized owner (resolves_iff.mpr looked))
      simp only [Run.get, State.machine, Heap.get, looked, ScopeError.stop]
  | error error =>
    rcases find_error looked with rfl | rfl
    · refine of_failed ?_ (undefined (unbound_iff.mpr looked))
      simp only [Run.get, State.machine, Heap.get, looked, ScopeError.stop]
    · have stuck : Run.get line name scope (state.machine depth) =
          .error .dangling (state.machine depth) := by
        simp only [Run.get, State.machine, Heap.get, looked, ScopeError.stop]
      exact of_stuck stuck (by simp)

theorem assign {relation : State → Except RuntimeError Unit → Prop} {value : Value}
    (found : ∀ owner binding, Resolves state.heap name scope owner binding →
      relation (state.define name value owner) (.ok ()))
    (undefined : Unbound state.heap name scope →
      relation state (.error (.ofFault line (.undefinedVariable name)))) :
    Leads (Run.assign line name value scope) depth state relation := by
  cases looked : state.heap.find name scope with
  | ok binding =>
    refine of_ok ?_ (found _ _ (resolves_iff.mpr looked))
    simp only [Run.assign, State.machine, looked, State.define]
  | error error =>
    rcases find_error looked with rfl | rfl
    · refine of_failed ?_ (undefined (unbound_iff.mpr looked))
      simp only [Run.assign, State.machine, looked, ScopeError.stop]
    · have stuck : Run.assign line name value scope (state.machine depth) =
          .error .dangling (state.machine depth) := by
        simp only [Run.assign, State.machine, looked, ScopeError.stop]
      exact of_stuck stuck (by simp)

theorem bindName {relation : State → Except RuntimeError Unit → Prop} {binding : Option Value}
    (made : scope < state.heap.size →
      relation { state with heap := state.heap.bind name binding scope } (.ok ())) :
    Leads (Run.bind name binding scope) depth state relation := by
  by_cases inside : scope < state.heap.size
  · refine of_ok ?_ (made inside)
    exact if_pos inside
  · exact of_stuck (if_neg inside) (by simp)

theorem enter {relation : State → Except RuntimeError ScopeId → Prop} {bindings : Bindings}
    (made : scope < state.heap.size →
      relation { state with heap := state.heap.push ⟨bindings, some scope⟩ } (.ok state.fresh)) :
    Leads (Run.enter bindings scope) depth state relation := by
  by_cases inside : scope < state.heap.size
  · refine of_ok ?_ (made inside)
    exact if_pos inside
  · exact of_stuck (if_neg inside) (by simp)

theorem mayEnter {settings : Settings} {relation : State → Except RuntimeError Unit → Prop}
    (allowed : Context.Allows ⟨settings, depth, scope⟩ → relation state (.ok ()))
    (tooDeep : ∀ limit, settings.maxDepth = some limit → limit ≤ depth →
      relation state (.error (.ofFault line (.stackOverflow limit)))) :
    Leads (Run.mayEnter settings line) depth state relation := by
  cases limited : settings.maxDepth with
  | none =>
    have free : Context.Allows ⟨settings, depth, scope⟩ := by simp [Context.Allows, limited]
    exact of_ok (by simp only [Run.mayEnter, limited]) (allowed free)
  | some limit =>
    by_cases deep : limit ≤ depth
    · refine of_failed ?_ (tooDeep limit limited deep)
      simp only [Run.mayEnter, limited]
      exact if_pos deep
    · have free : Context.Allows ⟨settings, depth, scope⟩ := by
        simp only [Context.Allows, limited, Option.some.injEq]
        omega
      refine of_ok ?_ (allowed free)
      simp only [Run.mayEnter, limited]
      exact if_neg deep

/-- A call leaves the depth as it found it, since its body does. -/
theorem inFrame {frame : Frame} {body : Run Signal}
    {relation : State → Except RuntimeError Signal → Prop}
    {final : State → Except RuntimeError Value → Prop}
    (ran : Leads body (depth + 1) state relation)
    (returns : ∀ after result, relation after result → final after (returned frame result)) :
    Leads (Run.inFrame frame body) depth state final := by
  cases done : body (state.machine (depth + 1)) with
  | ok signal machine =>
    obtain ⟨after, rfl, holds⟩ := ran (.ok signal) machine done
    refine of_ended ?_ (returns after (.ok signal) holds)
    exact inFrame_ended done
  | error stop machine =>
    cases stop with
    | failed error =>
      obtain ⟨after, rfl, holds⟩ := ran (.error error) machine done
      refine of_ended ?_ (returns after (.error error) holds)
      exact inFrame_ended done
    | exhausted | dangling =>
      simp only [State.machine] at done
      have stuck : ∃ stop last, Run.inFrame frame body (state.machine depth) = .error stop last ∧
          ∀ error, stop ≠ .failed error := by
        simp only [Run.inFrame, State.machine, done]
        exact ⟨_, _, rfl, by simp⟩
      obtain ⟨_, _, ran, stuck⟩ := stuck
      exact of_stuck ran stuck

end Leads

/-- Whatever the parts of the evaluator come to under one budget, the rules derive. -/
structure Sound (settings : Settings) (fuel : Nat) : Prop where
  evaluate : ∀ depth scope state expr, Leads (evaluate settings scope fuel expr) depth state
    (Evaluates ⟨settings, depth, scope⟩ state expr)
  evaluateAll : ∀ depth scope state exprs, Leads (evaluateAll settings scope fuel exprs) depth state
    (EvaluatesAll ⟨settings, depth, scope⟩ state exprs)
  call : ∀ depth scope state callee arguments line,
    Leads (call settings fuel callee arguments line) depth state
      (Calls ⟨settings, depth, scope⟩ state callee arguments line)
  execute : ∀ depth scope state stmt, Leads (execute settings scope fuel stmt) depth state
    (Executes ⟨settings, depth, scope⟩ state stmt)
  executeAll : ∀ depth scope state stmts, Leads (executeAll settings scope fuel stmts) depth state
    (ExecutesAll ⟨settings, depth, scope⟩ state stmts)
  repeatWhile : ∀ depth scope state place condition body,
    Leads (repeatWhile settings scope fuel condition body) depth state
      (Executes ⟨settings, depth, scope⟩ state (.whileLoop place condition body))

namespace Sound

variable {settings : Settings}

theorem zero : Sound settings 0 := by
  constructor
  all_goals
    intros
    exact .of_stuck rfl (by simp)

variable {fuel : Nat} (ih : Sound settings fuel)
include ih

theorem evaluate_succ (depth : Nat) (scope : ScopeId) (state : State) (expr : Expr Place) :
    Leads (Interpreter.evaluate settings scope (fuel + 1) expr) depth state
      (Evaluates ⟨settings, depth, scope⟩ state expr) := by
  cases expr with
  | literal place value => exact .pure .literal
  | grouping place inner => exact (ih.evaluate depth scope state inner).mono fun _ _ => .grouping
  | unary place operator operand =>
    refine .bind (ih.evaluate depth scope state operand) ?_ fun _ _ => .unaryFails
    intro value middle first
    exact .lift (.unary first (unaryGives_iff.mpr rfl))
  | binary place operator left right =>
    refine .bind (ih.evaluate depth scope state left) ?_ fun _ _ => .binaryLeftFails
    intro leftValue middle first
    refine .bind (ih.evaluate depth scope middle right) ?_ fun _ _ => .binaryRightFails first
    intro rightValue after second
    exact .lift (.binary first second (binaryGives_apply _ _ _))
  | logical place operator left right =>
    cases operator with
    | and =>
      refine .bind (ih.evaluate depth scope state left) ?_ fun _ _ => .logicalFails
      intro value middle first
      split
      next holds =>
        exact (ih.evaluate depth scope middle right).mono fun _ _ =>
          .andRight first ((truthy_iff value).mpr holds)
      next fails => exact .pure (.andLeft first ((falsy_iff value).mpr fails))
    | or =>
      refine .bind (ih.evaluate depth scope state left) ?_ fun _ _ => .logicalFails
      intro value middle first
      split
      next holds => exact .pure (.orLeft first ((truthy_iff value).mpr holds))
      next fails =>
        exact (ih.evaluate depth scope middle right).mono fun _ _ =>
          .orRight first ((falsy_iff value).mpr fails)
  | name place name =>
    exact .get (fun _ _ found => .name found) (fun _ found => .uninitialized found)
      fun missing => .undefined missing
  | assign place name value =>
    refine .bind (ih.evaluate depth scope state value) ?_ fun _ _ => .assignFails
    intro value' middle first
    have assigned : Leads (Run.assign place.line name value' scope) depth middle fun after result =>
        Evaluates ⟨settings, depth, scope⟩ state (.assign place name value) after
          (result.map fun _ => value') :=
      .assign (fun _ _ found => .assign first found) fun missing => .assignUndefined first missing
    exact .bind assigned (fun _ _ done => .pure done) fun _ _ done => done
  | call place callee arguments =>
    refine .bind (ih.evaluate depth scope state callee) ?_ fun _ _ => .calleeFails
    intro value middle function
    refine .bind (ih.evaluateAll depth scope middle arguments) ?_ fun _ _ => .argumentFails function
    intro values before passed
    exact (ih.call depth scope before value values place.line).mono fun _ _ => .call function passed

theorem evaluateAll_succ (depth : Nat) (scope : ScopeId) (state : State) (exprs : List (Expr Place)) :
    Leads (Interpreter.evaluateAll settings scope (fuel + 1) exprs) depth state
      (EvaluatesAll ⟨settings, depth, scope⟩ state exprs) := by
  cases exprs with
  | nil => exact .pure .nil
  | cons expr rest =>
    refine .bind (ih.evaluate depth scope state expr) ?_ fun _ _ => .firstFails
    intro value middle first
    refine .bind (ih.evaluateAll depth scope middle rest) ?_ fun _ _ => .restFails first
    intro values after others
    exact .pure (.cons first others)

theorem call_succ (depth : Nat) (scope : ScopeId) (state : State) (callee : Value)
    (arguments : List Value) (line : Nat) :
    Leads (Interpreter.call settings (fuel + 1) callee arguments line) depth state
      (Calls ⟨settings, depth, scope⟩ state callee arguments line) := by
  cases callee with
  | function closure =>
    simp only [Interpreter.call]
    split
    next wrong => exact .failing (.arity (Ne.symm wrong))
    next right =>
      have right : arguments.length = closure.arity := (Decidable.not_not.mp right).symm
      have allowed : Leads (Run.mayEnter settings line) depth state (Leads.Checks
          (fun after _ => after = state ∧ Context.Allows ⟨settings, depth, scope⟩)
          (Calls ⟨settings, depth, scope⟩ state (.function closure) arguments line)) :=
        .mayEnter (fun allows => ⟨rfl, allows⟩) fun limit limited deep =>
          .tooDeep right limited deep
      refine .check allowed ?_
      rintro _ middle ⟨same, allows⟩
      subst middle
      have entered (bindings : Bindings) :
          Leads (Run.enter bindings closure.scope) depth state (Leads.Checks
            (fun after inner => inner = state.fresh ∧ closure.scope < state.heap.size ∧
              after = { state with heap := state.heap.push ⟨bindings, some closure.scope⟩ })
            (Calls ⟨settings, depth, scope⟩ state (.function closure) arguments line)) :=
        .enter fun made => ⟨rfl, made, rfl⟩
      refine .check (entered _) ?_
      rintro _ _ ⟨rfl, made, rfl⟩
      refine .inFrame (ih.executeAll (depth + 1) _ _ closure.body) ?_
      intro after result ran
      -- The evaluator makes the scope with the parameters in it, the rule binds them one by one.
      rw [← receive_enter] at ran
      exact .user right allows made ran
  | native native =>
    simp only [Interpreter.call]
    split
    next wrong => exact .failing (.nativeArity (Ne.symm wrong))
    next right =>
      cases native with
      | clock =>
        obtain rfl : arguments = [] := List.eq_nil_of_length_eq_zero (Decidable.not_not.mp right).symm
        exact .of_ok rfl .clock
  | nil | bool | number | string => exact .fail (.notCallable (by simp) (by simp))

theorem execute_succ (depth : Nat) (scope : ScopeId) (state : State) (stmt : Stmt Place) :
    Leads (Interpreter.execute settings scope (fuel + 1) stmt) depth state
      (Executes ⟨settings, depth, scope⟩ state stmt) := by
  cases stmt with
  | expression place expr =>
    refine .bind (ih.evaluate depth scope state expr) ?_ fun _ _ => .expressionFails
    intro value after evaluated
    exact .pure (.expression evaluated)
  | print place expr =>
    refine .bind (ih.evaluate depth scope state expr) ?_ fun _ _ => .printFails
    intro value after evaluated
    exact .of_ok rfl (.print evaluated)
  | declare place name initial =>
    cases initial with
    | none =>
      have bound : Leads (Run.bind name none scope) depth state fun after result =>
          Executes ⟨settings, depth, scope⟩ state (.declare place name none) after
            (result.map fun _ => .normal) :=
        .bindName fun made => .declare made
      exact .bind bound (fun _ _ done => .pure done) fun _ _ done => done
    | some initial =>
      refine .bind (ih.evaluate depth scope state initial) ?_ fun _ _ => .defineFails
      intro value middle evaluated
      have bound : Leads (Run.bind name (some value) scope) depth middle fun after result =>
          Executes ⟨settings, depth, scope⟩ state (.declare place name (some initial)) after
            (result.map fun _ => .normal) :=
        .bindName fun made => .define evaluated made
      exact .bind bound (fun _ _ done => .pure done) fun _ _ done => done
  | block place body =>
    have entered : Leads (Run.enter [] scope) depth state fun after result =>
        result = .ok state.fresh ∧ after = state.enter scope ∧ scope < state.heap.size :=
      .enter fun made => ⟨rfl, rfl, made⟩
    refine .bind entered ?_ ?_
    · rintro inner middle ⟨fresh, rfl, made⟩
      cases fresh
      exact (ih.executeAll depth state.fresh (state.enter scope) body).mono
        fun _ _ ran => .block made ran
    · rintro error after ⟨fresh, -⟩
      cases fresh
  | ifThen place condition body =>
    refine .bind (ih.evaluate depth scope state condition) ?_ fun _ _ => .ifThenFails
    intro value middle evaluated
    split
    next holds =>
      exact (ih.execute depth scope middle body).mono fun _ _ =>
        .ifThen evaluated ((truthy_iff value).mpr holds)
    next fails =>
      exact .pure (.ifThenNot evaluated ((falsy_iff value).mpr fails))
  | ifElse place condition body other =>
    refine .bind (ih.evaluate depth scope state condition) ?_ fun _ _ => .ifElseFails
    intro value middle evaluated
    split
    next holds =>
      exact (ih.execute depth scope middle body).mono fun _ _ =>
        .ifElse evaluated ((truthy_iff value).mpr holds)
    next fails =>
      exact (ih.execute depth scope middle other).mono fun _ _ =>
        .ifElseNot evaluated ((falsy_iff value).mpr fails)
  | whileLoop place condition body => exact ih.repeatWhile depth scope state place condition body
  | function place name params body =>
    by_cases made : scope < state.heap.size
    · refine .of_ok ?_ (.function made)
      exact Sequencing.bind_ok (if_pos made)
    · exact .of_stuck (Sequencing.bind_error (if_neg made)) (by simp)
  | returnValue place value =>
    cases value with
    | none => exact .pure .returnNothing
    | some expr =>
      refine .bind (ih.evaluate depth scope state expr) ?_ fun _ _ => .returnFails
      intro value after evaluated
      exact .pure (.returnValue evaluated)
  | breakLoop place => exact .pure .breakLoop
  | continueLoop place => exact .pure .continueLoop

theorem executeAll_succ (depth : Nat) (scope : ScopeId) (state : State)
    (stmts : List (Stmt Place)) :
    Leads (Interpreter.executeAll settings scope (fuel + 1) stmts) depth state
      (ExecutesAll ⟨settings, depth, scope⟩ state stmts) := by
  cases stmts with
  | nil => exact .pure .nil
  | cons stmt rest =>
    refine .bind (ih.execute depth scope state stmt) ?_ fun _ _ => .fails
    intro signal middle first
    cases signal with
    | normal => exact (ih.executeAll depth scope middle rest).mono fun _ _ => .cons first
    | returning value line => exact .pure (.signals first (by simp))
    | jumping jump line => exact .pure (.signals first (by simp))

theorem repeatWhile_succ (depth : Nat) (scope : ScopeId) (state : State) (place : Place)
    (condition : Expr Place) (body : Stmt Place) :
    Leads (Interpreter.repeatWhile settings scope (fuel + 1) condition body) depth state
      (Executes ⟨settings, depth, scope⟩ state (.whileLoop place condition body)) := by
  refine .bind (ih.evaluate depth scope state condition) ?_ fun _ _ => .whileFails
  intro value middle evaluated
  split
  next truth =>
    have holds := (truthy_iff value).mpr truth
    refine .bind (ih.execute depth scope middle body) ?_ fun _ _ => .whileBodyFails evaluated holds
    intro signal before ran
    have again := ih.repeatWhile depth scope before place condition body
    cases signal with
    | normal => exact again.mono fun _ _ => .whileAgain evaluated holds ran (.inl rfl)
    | returning value line => exact .pure (.whileReturn evaluated holds ran)
    | jumping jump line =>
      cases jump with
      | continuing => exact again.mono fun _ _ => .whileAgain evaluated holds ran (.inr ⟨line, rfl⟩)
      | breaking => exact .pure (.whileBreak evaluated holds ran)
  next fails => exact .pure (.whileDone evaluated ((falsy_iff value).mpr fails))

theorem succ : Sound settings (fuel + 1) where
  evaluate := ih.evaluate_succ
  evaluateAll := ih.evaluateAll_succ
  call := ih.call_succ
  execute := ih.execute_succ
  executeAll := ih.executeAll_succ
  repeatWhile := ih.repeatWhile_succ

end Sound

end Lox.Semantics
