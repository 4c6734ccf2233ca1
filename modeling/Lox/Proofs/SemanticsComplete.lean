import Lox.Proofs.RunFuel
import Lox.Proofs.SemanticsSound

/-! Whatever the rules derive, the interpreter comes to under every budget from some bound on. The
recursion is on the derivation, so a loop ends where its derivation does. -/

namespace Lox.Semantics
open Interpreter

/-- Under every budget that is large enough, the run comes to this end. -/
def Settles {α : Type} (run : Nat → Run α) (depth : Nat) (state : State)
    (result : Except RuntimeError α) (after : State) : Prop :=
  ∃ bound, ∀ fuel, bound ≤ fuel →
    run fuel (state.machine depth) = Run.ended result (after.machine depth)

namespace Settles

variable {α β : Type} {depth : Nat} {state middle after : State} {run first : Nat → Run α}
  {next : α → Nat → Run β} {result : Except RuntimeError α} {last : Except RuntimeError β}

/-- A step that does not depend on the budget. -/
theorem of_run {run : Run α}
    (ran : run (state.machine depth) = Run.ended result (after.machine depth)) :
    Settles (fun _ => run) depth state result after :=
  ⟨0, fun _ _ => ran⟩

theorem pure {value : α} : Settles (fun _ => Pure.pure value) depth state (.ok value) state :=
  of_run rfl

theorem succ (settled : Settles (fun fuel => run (fuel + 1)) depth state result after) :
    Settles run depth state result after := by
  obtain ⟨bound, holds⟩ := settled
  refine ⟨bound + 1, fun fuel enough => ?_⟩
  obtain ⟨fuel, rfl⟩ := Nat.exists_eq_add_of_le' (Nat.le_trans (Nat.le_add_left 1 bound) enough)
  exact holds fuel (Nat.le_of_succ_le_succ enough)

theorem pred (settled : Settles run depth state result after) :
    Settles (fun fuel => run (fuel + 1)) depth state result after := by
  obtain ⟨bound, holds⟩ := settled
  exact ⟨bound, fun fuel enough => holds (fuel + 1) (Nat.le_succ_of_le enough)⟩

theorem bind {value : α} (ran : Settles first depth state (.ok value) middle)
    (goesOn : Settles (next value) depth middle last after) :
    Settles (fun fuel => first fuel >>= fun value => next value fuel) depth state last after := by
  obtain ⟨bound, holds⟩ := ran
  obtain ⟨larger, further⟩ := goesOn
  refine ⟨max bound larger, fun fuel enough => ?_⟩
  have ran := holds fuel (Nat.le_trans (Nat.le_max_left _ _) enough)
  exact (Sequencing.bind_ok ran).trans (further fuel (Nat.le_trans (Nat.le_max_right _ _) enough))

theorem stops {error : RuntimeError} (ran : Settles first depth state (.error error) after) :
    Settles (fun fuel => first fuel >>= fun value => next value fuel) depth state (.error error)
      after := by
  obtain ⟨bound, holds⟩ := ran
  exact ⟨bound, fun fuel enough => Sequencing.bind_error (holds fuel enough)⟩

theorem choose {condition : Prop} [Decidable condition] {other : Nat → Run α} (holds : condition)
    (settled : Settles run depth state result after) :
    Settles (fun fuel => if condition then run fuel else other fuel) depth state result after := by
  simpa only [if_pos holds] using settled

theorem refuse {condition : Prop} [Decidable condition] {other : Nat → Run α} (fails : ¬ condition)
    (settled : Settles run depth state result after) :
    Settles (fun fuel => if condition then other fuel else run fuel) depth state result after := by
  simpa only [if_neg fails] using settled

theorem lift {line : Nat} {result : Except RuntimeFault α} :
    Settles (fun _ => Run.lift line result) depth state (onLine line result) state := by
  cases result with
  | ok value => exact of_run rfl
  | error fault => exact of_run rfl

variable {name : String} {scope owner : ScopeId} {line : Nat}

theorem get {value : Value} (found : Resolves state.heap name scope owner (some value)) :
    Settles (fun _ => Run.get line name scope) depth state (.ok value) state := by
  have looked : state.heap.get name scope = .ok value := by
    simp only [Heap.get, resolves_iff.mp found]
  exact of_run (by simp only [Run.get, State.machine, looked, Run.ended])

theorem get_uninitialized (found : Resolves state.heap name scope owner none) :
    Settles (fun _ => Run.get line name scope) depth state
      (.error (.ofFault line (.uninitializedVariable name))) state := by
  have looked : state.heap.get name scope = .error .uninitialized := by
    simp only [Heap.get, resolves_iff.mp found]
  exact of_run (by simp only [Run.get, State.machine, looked, Run.ended, ScopeError.stop])

theorem get_undefined (missing : Unbound state.heap name scope) :
    Settles (fun _ => Run.get line name scope) depth state
      (.error (.ofFault line (.undefinedVariable name))) state := by
  have looked : state.heap.get name scope = .error .undefined := by
    simp only [Heap.get, unbound_iff.mp missing]
  exact of_run (by simp only [Run.get, State.machine, looked, Run.ended, ScopeError.stop])

theorem assign {value : Value} {binding : Option Value}
    (found : Resolves state.heap name scope owner binding) :
    Settles (fun _ => Run.assign line name value scope) depth state (.ok ())
      (state.define name value owner) :=
  of_run (by simp only [Run.assign, State.machine, resolves_iff.mp found, Run.ended, State.define])

theorem assign_undefined {value : Value} (missing : Unbound state.heap name scope) :
    Settles (fun _ => Run.assign line name value scope) depth state
      (.error (.ofFault line (.undefinedVariable name))) state :=
  of_run (by simp only [Run.assign, State.machine, unbound_iff.mp missing, Run.ended, ScopeError.stop])

theorem bindName {binding : Option Value} (made : scope < state.heap.size) :
    Settles (fun _ => Run.bind name binding scope) depth state (.ok ())
      { state with heap := state.heap.bind name binding scope } :=
  of_run (if_pos made)

theorem enter {bindings : Bindings} (made : scope < state.heap.size) :
    Settles (fun _ => Run.enter bindings scope) depth state (.ok state.fresh)
      { state with heap := state.heap.push ⟨bindings, some scope⟩ } :=
  of_run (if_pos made)

theorem declareFunction {params : List String} {body : List (Stmt Place)}
    (made : scope < state.heap.size) :
    Settles (fun _ => Run.declareFunction name params body scope) depth state (.ok ())
      (state.declareFunction name params body scope) := by
  have numbered : Run.newFunction (state.machine depth) =
      .ok state.functions (State.machine { state with functions := state.functions + 1 } depth) := rfl
  exact of_run ((Sequencing.bind_ok numbered).trans (if_pos made))

theorem mayEnter {settings : Settings} (allowed : Context.Allows ⟨settings, depth, scope⟩) :
    Settles (fun _ => Run.mayEnter settings line) depth state (.ok ()) state := by
  cases limited : settings.maxDepth with
  | none => exact of_run (by simp only [Run.mayEnter, limited, Run.ended])
  | some limit =>
    have shallow : ¬ limit ≤ depth := Nat.not_le.mpr (allowed limit limited)
    exact of_run (by simp only [Run.mayEnter, limited]; exact if_neg shallow)

theorem mayEnter_tooDeep {settings : Settings} {limit : Nat}
    (limited : settings.maxDepth = some limit) (deep : limit ≤ depth) :
    Settles (fun _ => Run.mayEnter settings line) depth state
      (.error (.ofFault line (.stackOverflow limit))) state :=
  of_run (by simp only [Run.mayEnter, limited]; exact if_pos deep)

theorem inFrame {frame : Frame} {body : Nat → Run Signal} {result : Except RuntimeError Signal}
    (ran : Settles body (depth + 1) state result after) :
    Settles (fun fuel => Run.inFrame frame (body fuel)) depth state (returned frame result) after := by
  obtain ⟨bound, holds⟩ := ran
  exact ⟨bound, fun fuel enough => inFrame_ended (holds fuel enough)⟩

end Settles

mutual

theorem Evaluates.settles {context : Context} {state after : State} {expr : Expr Place}
    {result : Except RuntimeError Value} : Evaluates context state expr after result →
    Settles (fun fuel => evaluate context.settings context.scope fuel expr) context.depth state
      result after
  | .literal => .succ .pure
  | .grouping inner => .succ inner.settles
  | .unary operand applied => by
    cases unaryGives_iff.mp applied
    exact .succ (.bind operand.settles .lift)
  | .unaryFails operand => .succ (.stops operand.settles)
  | .binary first second applied => by
    cases binaryGives_iff.mp applied
    exact .succ (.bind first.settles (.bind second.settles .lift))
  | .binaryLeftFails first => .succ (.stops first.settles)
  | .binaryRightFails first second => .succ (.bind first.settles (.stops second.settles))
  | .orLeft first holds => .succ (.bind first.settles (.choose ((truthy_iff _).mp holds) .pure))
  | .orRight first fails second =>
    .succ (.bind first.settles (.refuse ((falsy_iff _).mp fails) second.settles))
  | .andLeft first fails => .succ (.bind first.settles (.refuse ((falsy_iff _).mp fails) .pure))
  | .andRight first holds second =>
    .succ (.bind first.settles (.choose ((truthy_iff _).mp holds) second.settles))
  | .logicalFails first => by
    cases ‹LogicalOperator› with
    | and => exact .succ (.stops first.settles)
    | or => exact .succ (.stops first.settles)
  | .name found => .succ (.get found)
  | .uninitialized found => .succ (.get_uninitialized found)
  | .undefined missing => .succ (.get_undefined missing)
  | .assign evaluated found => .succ (.bind evaluated.settles (.bind (.assign found) .pure))
  | .assignUndefined evaluated missing =>
    .succ (.bind evaluated.settles (.stops (.assign_undefined missing)))
  | .assignFails evaluated => .succ (.stops evaluated.settles)
  | .call function passed called =>
    .succ (.bind function.settles (.bind passed.settles called.settles))
  | .calleeFails function => .succ (.stops function.settles)
  | .argumentFails function passed => .succ (.bind function.settles (.stops passed.settles))

theorem EvaluatesAll.settles {context : Context} {state after : State} {exprs : List (Expr Place)}
    {result : Except RuntimeError (List Value)} : EvaluatesAll context state exprs after result →
    Settles (fun fuel => evaluateAll context.settings context.scope fuel exprs) context.depth state
      result after
  | .nil => .succ .pure
  | .cons first rest => .succ (.bind first.settles (.bind rest.settles .pure))
  | .firstFails first => .succ (.stops first.settles)
  | .restFails first rest => .succ (.bind first.settles (.stops rest.settles))

theorem Calls.settles {context : Context} {state after : State} {callee : Value}
    {arguments : List Value} {line : Nat} {result : Except RuntimeError Value} :
    Calls context state callee arguments line after result →
    Settles (fun fuel => call context.settings fuel callee arguments line) context.depth state
      result after
  | .notCallable user native => by
    refine .succ ?_
    cases callee with
    | function closure => exact absurd rfl (user closure)
    | native kind => exact absurd rfl (native kind)
    | nil | bool | number | string => exact .of_run rfl
  | .arity wrong => .succ (.choose (Ne.symm wrong) (.stops (.of_run rfl)))
  | .tooDeep right limited deep =>
    .succ (.refuse (not_not_intro right.symm) (.stops (.mayEnter_tooDeep limited deep)))
  | .user right allowed made ran => by
    have settled := ran.settles
    rw [receive_enter] at settled
    exact .succ (.refuse (not_not_intro right.symm) (.bind (.mayEnter allowed)
      (.bind (.enter made) (.inFrame settled))))
  | .nativeArity wrong => .succ (.choose (Ne.symm wrong) (.stops (.of_run rfl)))
  | .clock => .succ (.of_run rfl)

theorem Executes.settles {context : Context} {state after : State} {stmt : Stmt Place}
    {result : Except RuntimeError Signal} : Executes context state stmt after result →
    Settles (fun fuel => execute context.settings context.scope fuel stmt) context.depth state
      result after
  | .expression evaluated => .succ (.bind evaluated.settles .pure)
  | .expressionFails evaluated => .succ (.stops evaluated.settles)
  | .print evaluated => .succ (.bind evaluated.settles (.bind (.of_run rfl) .pure))
  | .printFails evaluated => .succ (.stops evaluated.settles)
  | .declare made => .succ (.bind (.bindName made) .pure)
  | .define evaluated made => .succ (.bind evaluated.settles (.bind (.bindName made) .pure))
  | .defineFails evaluated => .succ (.stops evaluated.settles)
  | .block made ran => .succ (.bind (.enter made) ran.settles)
  | .ifThen evaluated holds ran =>
    .succ (.bind evaluated.settles (.choose ((truthy_iff _).mp holds) ran.settles))
  | .ifThenNot evaluated fails =>
    .succ (.bind evaluated.settles (.refuse ((falsy_iff _).mp fails) .pure))
  | .ifThenFails evaluated => .succ (.stops evaluated.settles)
  | .ifElse evaluated holds ran =>
    .succ (.bind evaluated.settles (.choose ((truthy_iff _).mp holds) ran.settles))
  | .ifElseNot evaluated fails ran =>
    .succ (.bind evaluated.settles (.refuse ((falsy_iff _).mp fails) ran.settles))
  | .ifElseFails evaluated => .succ (.stops evaluated.settles)
  -- A loop takes two units of the budget, one for the statement and one for its first round.
  | .whileDone evaluated fails =>
    .succ (.succ (.bind evaluated.settles (.refuse ((falsy_iff _).mp fails) .pure)))
  | .whileFails evaluated => .succ (.succ (.stops evaluated.settles))
  | .whileAgain evaluated holds ran continues again => by
    refine .succ (.succ (.bind evaluated.settles (.choose ((truthy_iff _).mp holds)
      (.bind ran.settles ?_))))
    rcases continues with rfl | ⟨line, rfl⟩
    · exact again.settles.pred
    · exact again.settles.pred
  | .whileBreak evaluated holds ran =>
    .succ (.succ (.bind evaluated.settles (.choose ((truthy_iff _).mp holds)
      (.bind ran.settles .pure))))
  | .whileReturn evaluated holds ran =>
    .succ (.succ (.bind evaluated.settles (.choose ((truthy_iff _).mp holds)
      (.bind ran.settles .pure))))
  | .whileBodyFails evaluated holds ran =>
    .succ (.succ (.bind evaluated.settles (.choose ((truthy_iff _).mp holds)
      (.stops ran.settles))))
  | .function made => .succ (.bind (.declareFunction made) .pure)
  | .returnNothing => .succ .pure
  | .returnValue evaluated => .succ (.bind evaluated.settles .pure)
  | .returnFails evaluated => .succ (.stops evaluated.settles)
  | .breakLoop => .succ .pure
  | .continueLoop => .succ .pure

theorem ExecutesAll.settles {context : Context} {state after : State} {stmts : List (Stmt Place)}
    {result : Except RuntimeError Signal} : ExecutesAll context state stmts after result →
    Settles (fun fuel => executeAll context.settings context.scope fuel stmts) context.depth state
      result after
  | .nil => .succ .pure
  | .cons first rest => .succ (.bind first.settles rest.settles)
  | .signals first leaves => by
    refine .succ (.bind first.settles ?_)
    cases ‹Signal› with
    | normal => exact absurd rfl leaves
    | returning | jumping => exact .pure
  | .fails first => .succ (.stops first.settles)

end

theorem Runs.settles {context : Context} {state after : State} {program : Program}
    {result : Except RuntimeError Unit} (runs : Runs context state program after result) :
    Settles (fun fuel => executeTop context.settings context.scope fuel program) context.depth state
      result after := by
  induction runs with
  | nil => exact .pure
  | cons first _ ih => exact .bind first.settles ih
  | jumps first => exact .bind first.settles (.of_run rfl)
  | returns first => exact .bind first.settles (.of_run rfl)
  | fails first => exact .stops first.settles

/-- A program comes to one end only. -/
theorem Runs.unique {context : Context} {state after other : State} {program : Program}
    {result again : Except RuntimeError Unit} (runs : Runs context state program after result)
    (reruns : Runs context state program other again) : after = other ∧ result = again := by
  obtain ⟨bound, holds⟩ := runs.settles
  obtain ⟨larger, further⟩ := reruns.settles
  have same := (holds _ (Nat.le_max_left bound larger)).symm.trans
    (further _ (Nat.le_max_right bound larger))
  cases result with
  | ok => cases again with
    | ok => exact ⟨State.machine_inj (EStateM.Result.ok.inj same).2, rfl⟩
    | error => cases same
  | error => cases again with
    | ok => cases same
    | error =>
      obtain ⟨failed, last⟩ := EStateM.Result.error.inj same
      exact ⟨State.machine_inj last, congrArg _ (Stop.failed.inj failed)⟩

end Lox.Semantics

namespace Lox.Session
open Semantics

/-- The state a program of the session begins in. Nothing is printed yet. -/
def state (session : Session) : State :=
  ⟨session.machine.heap, #[], session.machine.functions, session.machine.readings⟩

def context (session : Session) : Context :=
  ⟨session.settings, session.machine.depth, session.globals⟩

/-- The rules lead from the session to the outcome. -/
def Derives (session : Session) (program : Program) (outcome : Outcome (Except RuntimeError Unit)) :
    Prop :=
  ∃ after, Runs session.context session.state program after outcome.result ∧
    outcome.printed = printedText after.printed ∧
      outcome.session = { session with machine := after.machine session.machine.depth }

end Lox.Session
