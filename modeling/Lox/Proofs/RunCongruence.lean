import Lox.Interpreter
import Lox.Proofs.Sequencing

/-! A relation between two runs that holds of every operation of the machine, and that sequencing
respects, holds of evaluation as a whole. The induction over the evaluator is done here once; its
instances compare budgets, limits and single runs with themselves. -/

namespace Lox.Run

variable {α : Type}

/-- What a run gives when it comes to an end, by itself or with an error of the program. -/
def ended : Except RuntimeError α → Machine → EStateM.Result Stop Machine α
  | .ok value, machine => .ok value machine
  | .error error, machine => .error (.failed error) machine

theorem ended_eq_error {result : Except RuntimeError α} {last : Machine} {stop : Stop}
    (same : ended result machine = .error stop last) :
    ∃ error, result = .error error ∧ stop = .failed error ∧ machine = last := by
  cases result with
  | ok value => cases same
  | error error =>
    cases same
    exact ⟨error, rfl, rfl, rfl⟩

end Lox.Run

namespace Lox.Proofs.RunCongruence
open Interpreter

/-- The second of two related evaluations has other settings, and a budget greater by `extra`. -/
structure Respected (settings other : Settings) (extra : Nat)
    (related : {α : Type} → Run α → Run α → Prop) : Prop where
  exhausted : ∀ {α : Type} (run : Run α), (extra = 0 → run = throw .exhausted) →
    related (throw .exhausted) run
  pure : ∀ {α : Type} (value : α), related (pure value) (pure value)
  bind : ∀ {α β : Type} {first second : Run α} {next later : α → Run β}, related first second →
    (∀ value, related (next value) (later value)) → related (first >>= next) (second >>= later)
  fail : ∀ {α : Type} line fault, related (Run.fail line fault : Run α) (Run.fail line fault)
  get : ∀ line name scope, related (Run.get line name scope) (Run.get line name scope)
  assign : ∀ line name value scope,
    related (Run.assign line name value scope) (Run.assign line name value scope)
  bindName : ∀ name value scope, related (Run.bind name value scope) (Run.bind name value scope)
  enter : ∀ bindings parent, related (Run.enter bindings parent) (Run.enter bindings parent)
  print : ∀ value, related (Run.print value) (Run.print value)
  newFunction : related Run.newFunction Run.newFunction
  native : ∀ native, related (Run.native settings native) (Run.native other native)
  mayEnter : ∀ line, related (Run.mayEnter settings line) (Run.mayEnter other line)
  inFrame : ∀ frame {body second : Run Signal}, related body second →
    related (Run.inFrame frame body) (Run.inFrame frame second)

/-- All parts of the evaluator are related at a pair of budgets. -/
structure Related (settings other : Settings) (related : {α : Type} → Run α → Run α → Prop)
    (fuel larger : Nat) : Prop where
  evaluate : ∀ scope expr,
    related (evaluate settings scope fuel expr) (evaluate other scope larger expr)
  evaluateAll : ∀ scope exprs,
    related (evaluateAll settings scope fuel exprs) (evaluateAll other scope larger exprs)
  call : ∀ callee arguments line,
    related (call settings fuel callee arguments line) (call other larger callee arguments line)
  execute : ∀ scope stmt,
    related (execute settings scope fuel stmt) (execute other scope larger stmt)
  executeAll : ∀ scope stmts,
    related (executeAll settings scope fuel stmts) (executeAll other scope larger stmts)
  repeatWhile : ∀ scope condition body, related (repeatWhile settings scope fuel condition body)
    (repeatWhile other scope larger condition body)

variable {settings other : Settings} {extra : Nat} {related : {α : Type} → Run α → Run α → Prop}

namespace Respected
variable (respected : Respected settings other extra related)
include respected

theorem lift {α : Type} (line : Nat) (result : Except RuntimeFault α) :
    related (Run.lift line result) (Run.lift line result) := by
  cases result with
  | ok value => exact respected.pure value
  | error fault => exact respected.fail line fault

theorem declareFunction (name : String) (params : List String) (body : List (Stmt Place))
    (scope : ScopeId) : related (Run.declareFunction name params body scope)
      (Run.declareFunction name params body scope) :=
  respected.bind respected.newFunction fun _ => respected.bindName _ _ _

theorem exhausted_zero : Related settings other related 0 (0 + extra) := by
  constructor
  all_goals
    intros
    apply respected.exhausted
    rintro rfl
    rfl

variable {fuel larger : Nat} (ih : Related settings other related fuel larger)
include ih

theorem evaluate_succ (scope : ScopeId) (expr : Expr Place) :
    related (evaluate settings scope (fuel + 1) expr)
      (evaluate other scope (larger + 1) expr) := by
  cases expr with
  | literal place value => exact respected.pure _
  | grouping place inner => exact ih.evaluate scope inner
  | unary place operator operand =>
    exact respected.bind (ih.evaluate scope operand) fun _ => respected.lift _ _
  | binary place operator left right =>
    exact respected.bind (ih.evaluate scope left) fun _ =>
      respected.bind (ih.evaluate scope right) fun _ => respected.lift _ _
  | logical place operator left right =>
    cases operator with
    | and =>
      apply respected.bind (ih.evaluate scope left)
      intro first
      split
      · exact ih.evaluate scope right
      · exact respected.pure first
    | or =>
      apply respected.bind (ih.evaluate scope left)
      intro first
      split
      · exact respected.pure first
      · exact ih.evaluate scope right
  | name place name => exact respected.get _ _ _
  | assign place name value =>
    exact respected.bind (ih.evaluate scope value) fun _ =>
      respected.bind (respected.assign _ _ _ _) fun _ => respected.pure _
  | call place callee arguments =>
    exact respected.bind (ih.evaluate scope callee) fun _ =>
      respected.bind (ih.evaluateAll scope arguments) fun _ => ih.call _ _ _

theorem evaluateAll_succ (scope : ScopeId) (exprs : List (Expr Place)) :
    related (evaluateAll settings scope (fuel + 1) exprs)
      (evaluateAll other scope (larger + 1) exprs) := by
  cases exprs with
  | nil => exact respected.pure _
  | cons expr rest =>
    exact respected.bind (ih.evaluate scope expr) fun _ =>
      respected.bind (ih.evaluateAll scope rest) fun _ => respected.pure _

theorem call_succ (callee : Value) (arguments : List Value) (line : Nat) :
    related (call settings (fuel + 1) callee arguments line)
      (call other (larger + 1) callee arguments line) := by
  cases callee with
  | function closure =>
    have entered := fun bindings => respected.bind (respected.mayEnter line) fun _ =>
      respected.bind (respected.enter bindings closure.scope) fun scope =>
        respected.inFrame ⟨closure.name, line⟩ (ih.executeAll scope closure.body)
    simp only [call]
    split
    · exact respected.bind (respected.fail _ _) fun _ => entered _
    · exact entered _
  | native native =>
    simp only [call]
    split
    · exact respected.bind (respected.fail _ _) fun _ => respected.native native
    · exact respected.native native
  | nil | bool | number | string => exact respected.fail _ _

theorem execute_succ (scope : ScopeId) (stmt : Stmt Place) :
    related (execute settings scope (fuel + 1) stmt)
      (execute other scope (larger + 1) stmt) := by
  cases stmt with
  | expression place expr =>
    exact respected.bind (ih.evaluate scope expr) fun _ => respected.pure _
  | print place expr =>
    exact respected.bind (ih.evaluate scope expr) fun _ =>
      respected.bind (respected.print _) fun _ => respected.pure _
  | declare place name initial =>
    cases initial with
    | none => exact respected.bind (respected.bindName _ _ _) fun _ => respected.pure _
    | some initial =>
      exact respected.bind (ih.evaluate scope initial) fun _ =>
        respected.bind (respected.bindName _ _ _) fun _ => respected.pure _
  | block place body =>
    exact respected.bind (respected.enter _ _) fun inner => ih.executeAll inner body
  | ifThen place condition body =>
    apply respected.bind (ih.evaluate scope condition)
    intro value
    split
    · exact ih.execute scope body
    · exact respected.pure _
  | ifElse place condition body otherwise =>
    apply respected.bind (ih.evaluate scope condition)
    intro value
    split
    · exact ih.execute scope body
    · exact ih.execute scope otherwise
  | whileLoop place condition body => exact ih.repeatWhile scope condition body
  | function place name params body =>
    exact respected.bind (respected.declareFunction _ _ _ _) fun _ => respected.pure _
  | returnValue place value =>
    cases value with
    | none => exact respected.pure _
    | some expr => exact respected.bind (ih.evaluate scope expr) fun _ => respected.pure _
  | breakLoop place => exact respected.pure _
  | continueLoop place => exact respected.pure _

theorem executeAll_succ (scope : ScopeId) (stmts : List (Stmt Place)) :
    related (executeAll settings scope (fuel + 1) stmts)
      (executeAll other scope (larger + 1) stmts) := by
  cases stmts with
  | nil => exact respected.pure _
  | cons stmt rest =>
    apply respected.bind (ih.execute scope stmt)
    intro signal
    cases signal with
    | normal => exact ih.executeAll scope rest
    | returning value line => exact respected.pure _
    | jumping jump line => exact respected.pure _

theorem repeatWhile_succ (scope : ScopeId) (condition : Expr Place) (body : Stmt Place) :
    related (repeatWhile settings scope (fuel + 1) condition body)
      (repeatWhile other scope (larger + 1) condition body) := by
  apply respected.bind (ih.evaluate scope condition)
  intro value
  split
  · apply respected.bind (ih.execute scope body)
    intro signal
    cases signal with
    | normal => exact ih.repeatWhile scope condition body
    | returning value line => exact respected.pure _
    | jumping jump line =>
      cases jump with
      | breaking => exact respected.pure _
      | continuing => exact ih.repeatWhile scope condition body
  · exact respected.pure _

omit ih in
/-- The induction over the evaluator, on the budget of the first run. -/
theorem everywhere (fuel : Nat) : Related settings other related fuel (fuel + extra) := by
  induction fuel with
  | zero => exact respected.exhausted_zero
  | succ fuel ih =>
    rw [Nat.add_right_comm]
    constructor
    · exact respected.evaluate_succ ih
    · exact respected.evaluateAll_succ ih
    · exact respected.call_succ ih
    · exact respected.execute_succ ih
    · exact respected.executeAll_succ ih
    · exact respected.repeatWhile_succ ih

omit ih in
theorem executeTop (fuel : Nat) (scope : ScopeId) (stmts : List (Stmt Place)) :
    related (executeTop settings scope fuel stmts)
      (executeTop other scope (fuel + extra) stmts) := by
  induction stmts with
  | nil => exact respected.pure ()
  | cons stmt rest ih =>
    apply respected.bind ((respected.everywhere fuel).execute scope stmt)
    intro signal
    cases signal with
    | normal => exact ih
    | returning value line => exact respected.fail _ _
    | jumping jump line => exact respected.fail _ _

end Respected
end Lox.Proofs.RunCongruence
