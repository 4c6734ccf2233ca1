import Lox.Proofs.DepthLimit
import Lox.Proofs.StoredClosures

/-! Runs that keep a record of themselves. A recorded run does what the run does, and tells on the
way what the machine was before and after each operation, which values expressions had, and which
functions were made. It tells this of runs that do not come to an end, too, as far as their budget
goes. -/

namespace Lox
open Proofs.DepthLimit (last)

/-- What is told of a run: the machine at a moment, the value of an expression, and the function that
the execution of a declaration made. -/
inductive Event where
  | moment (machine : Machine)
  | gives (value : Value)
  | makes (place : Place) (closure : Closure)

def Recorded (α : Type) : Type := Machine → List Event × EStateM.Result Stop Machine α

namespace Recorded

variable {α β : Type}

/-- A single operation. -/
def of (run : Run α) : Recorded α := fun machine =>
  ([.moment machine, .moment (last (run machine))], run machine)

def note (event : Event) : Recorded Unit := fun machine => ([event], .ok () machine)

instance : Monad Recorded where
  pure value := of (pure value)
  bind first next := fun machine =>
    match first machine with
    | (events, .ok value after) => (events ++ (next value after).1, (next value after).2)
    | (events, .error stop after) => (events, .error stop after)

def giving (run : Recorded Value) : Recorded Value := fun machine =>
  match run machine with
  | (events, .ok value after) => (events ++ [.gives value], .ok value after)
  | (events, .error stop after) => (events, .error stop after)

def declareFunction (place : Place) (name : String) (params : List String)
    (body : List (Stmt Place)) (scope : ScopeId) : Recorded Unit := do
  let id ← of Run.newFunction
  note (.makes place ⟨id, name, params, body, scope⟩)
  of (Run.bind name (some (.function ⟨id, name, params, body, scope⟩)) scope)

def inFrame (frame : Frame) (body : Recorded Signal) : Recorded Value := fun machine =>
  let inside := { machine with depth := machine.depth + 1 }
  let result := Run.inFrame frame (fun machine => (body machine).2) machine
  ([.moment machine, .moment inside] ++ (body inside).1 ++ [.moment (last result)], result)

section Interpreter

variable (settings : Settings)

mutual

def evaluate (scope : ScopeId) : Nat → Expr Place → Recorded Value
  | 0, _ => of (throw .exhausted)
  | fuel + 1, expr => giving <|
    match expr with
    | .literal _ value => pure (.ofLiteral value)
    | .grouping _ inner => evaluate scope fuel inner
    | .unary place operator operand => do
      let value ← evaluate scope fuel operand
      of (Run.lift place.line (operator.apply value))
    | .binary place operator left right => do
      let first ← evaluate scope fuel left
      let second ← evaluate scope fuel right
      of (Run.lift place.line (operator.apply first second))
    | .logical _ .or left right => do
      let first ← evaluate scope fuel left
      if first.isTruthy then return first else evaluate scope fuel right
    | .logical _ .and left right => do
      let first ← evaluate scope fuel left
      if first.isTruthy then evaluate scope fuel right else return first
    | .name place name => of (Run.get place.line name scope)
    | .assign place name value => do
      let value ← evaluate scope fuel value
      of (Run.assign place.line name value scope)
      return value
    | .call place callee arguments => do
      let callee ← evaluate scope fuel callee
      let arguments ← evaluateAll scope fuel arguments
      call fuel callee arguments place.line
termination_by structural fuel => fuel

def evaluateAll (scope : ScopeId) : Nat → List (Expr Place) → Recorded (List Value)
  | 0, _ => of (throw .exhausted)
  | _ + 1, [] => pure []
  | fuel + 1, expr :: rest => do
    let value ← evaluate scope fuel expr
    let values ← evaluateAll scope fuel rest
    return value :: values
termination_by structural fuel => fuel

def call : Nat → Value → List Value → Nat → Recorded Value
  | 0, _, _, _ => of (throw .exhausted)
  | fuel + 1, callee, arguments, line =>
    match callee with
    | .function closure => do
      if closure.arity ≠ arguments.length then
        of (Run.fail line (.arityMismatch closure.name closure.arity arguments.length))
      of (Run.mayEnter settings line)
      let bindings := (closure.params.zip arguments).foldl
        (fun bindings (name, value) => Bindings.set name (some value) bindings) []
      let scope ← of (Run.enter bindings closure.scope)
      inFrame ⟨closure.name, line⟩ (executeAll scope fuel closure.body)
    | .native native => do
      if native.arity ≠ arguments.length then
        of (Run.fail line (.arityMismatch native.name native.arity arguments.length))
      of (Run.native settings native)
    | other => of (Run.fail line (.notCallable other.typeName))
termination_by structural fuel => fuel

def execute (scope : ScopeId) : Nat → Stmt Place → Recorded Signal
  | 0, _ => of (throw .exhausted)
  | fuel + 1, stmt =>
    match stmt with
    | .expression _ expr => do
      let _ ← evaluate scope fuel expr
      return .normal
    | .print _ expr => do
      let value ← evaluate scope fuel expr
      of (Run.print value)
      return .normal
    | .declare _ name none => do
      of (Run.bind name none scope)
      return .normal
    | .declare _ name (some initial) => do
      let value ← evaluate scope fuel initial
      of (Run.bind name (some value) scope)
      return .normal
    | .block _ body => do
      let inner ← of (Run.enter [] scope)
      executeAll inner fuel body
    | .ifThen _ condition body => do
      let value ← evaluate scope fuel condition
      if value.isTruthy then execute scope fuel body else return .normal
    | .ifElse _ condition body other => do
      let value ← evaluate scope fuel condition
      if value.isTruthy then execute scope fuel body else execute scope fuel other
    | .whileLoop _ condition body => repeatWhile scope fuel condition body
    | .function place name params body => do
      declareFunction place name params body scope
      return .normal
    | .returnValue place none => return .returning .nil place.line
    | .returnValue place (some expr) => do
      let value ← evaluate scope fuel expr
      return .returning value place.line
    | .breakLoop place => return .jumping .breaking place.line
    | .continueLoop place => return .jumping .continuing place.line
termination_by structural fuel => fuel

def executeAll (scope : ScopeId) : Nat → List (Stmt Place) → Recorded Signal
  | 0, _ => of (throw .exhausted)
  | _ + 1, [] => return .normal
  | fuel + 1, stmt :: rest => do
    match ← execute scope fuel stmt with
    | .normal => executeAll scope fuel rest
    | signal => return signal
termination_by structural fuel => fuel

def repeatWhile (scope : ScopeId) : Nat → Expr Place → Stmt Place → Recorded Signal
  | 0, _, _ => of (throw .exhausted)
  | fuel + 1, condition, body => do
    let value ← evaluate scope fuel condition
    if value.isTruthy then
      match ← execute scope fuel body with
      | .normal | .jumping .continuing _ => repeatWhile scope fuel condition body
      | .jumping .breaking _ => return .normal
      | signal => return signal
    else return .normal
termination_by structural fuel => fuel

end

def executeTop (scope : ScopeId) (fuel : Nat) : List (Stmt Place) → Recorded Unit
  | [] => pure ()
  | stmt :: rest => do
    match ← execute settings scope fuel stmt with
    | .normal => executeTop scope fuel rest
    | .jumping jump line => of (Run.fail line (.outsideLoop jump))
    | .returning _ line => of (Run.fail line .outsideFunction)

end Interpreter
end Recorded

variable {property : Closure → Prop}

theorem Value.ofLiteral_meets (literal : Literal) : (Value.ofLiteral literal).Meets property := by
  cases literal <;> trivial

theorem Value.meets_any (value : Value) : value.Meets fun _ => True := by
  cases value <;> trivial

/-- The value that a signal carries, if there is one, is no function or one with the property. -/
def Signal.Meets (property : Closure → Prop) : Signal → Prop
  | .returning value _ => value.Meets property
  | .normal | .jumping _ _ => True

/-- What runs give, by the functions in it. -/
class Carrier (α : Type) where
  Meets : (Closure → Prop) → α → Prop
  any : ∀ carrier, Meets (fun _ => True) carrier

instance : Carrier Value where
  Meets := Value.Meets
  any := Value.meets_any

instance : Carrier (List Value) where
  Meets property values := ∀ value ∈ values, value.Meets property
  any _ value _ := value.meets_any

instance : Carrier Signal where
  Meets := Signal.Meets
  any
    | .returning value _ => value.meets_any
    | .normal | .jumping _ _ => trivial

instance : Carrier Unit where
  Meets _ _ := True
  any _ := trivial

instance : Carrier ScopeId where
  Meets _ _ := True
  any _ := trivial

namespace Recorded

open Carrier (Meets)

/-- A relation between recorded runs and runs that holds of all operations and that sequencing
respects, where the functions in what runs give have a property. A call begins only where it may, so
its body comes together with what goes before it. -/
structure Respected (settings : Settings) (property : Closure → Prop)
    (related : {α : Type} → [Carrier α] → Recorded α → Run α → Prop) : Prop where
  exhausted : ∀ {α : Type} [Carrier α],
    related (of (throw .exhausted) : Recorded α) (throw .exhausted)
  pure : ∀ {α : Type} [Carrier α] (value : α), Meets property value →
    related (pure value) (pure value)
  bind : ∀ {α β : Type} [Carrier α] [Carrier β] {first : Recorded α} {run : Run α}
    {next : α → Recorded β} {later : α → Run β}, related first run →
    (∀ value, Meets property value → related (next value) (later value)) →
    related (first >>= next) (run >>= later)
  fail : ∀ {α : Type} [Carrier α] line fault,
    related (of (Run.fail line fault) : Recorded α) (Run.fail line fault)
  giving : ∀ {recorded run}, related recorded run → related (giving recorded) run
  get : ∀ line name scope, related (of (Run.get line name scope)) (Run.get line name scope)
  assign : ∀ line name {value : Value} scope, Meets property value →
    related (of (Run.assign line name value scope)) (Run.assign line name value scope)
  bindName : ∀ name {value : Option Value} scope, (∀ own, value = some own → Meets property own) →
    related (of (Run.bind name value scope)) (Run.bind name value scope)
  enter : ∀ {bindings : Bindings} parent, bindings.Meets property →
    related (of (Run.enter bindings parent)) (Run.enter bindings parent)
  print : ∀ value, related (of (Run.print value)) (Run.print value)
  declareFunction : ∀ place name params body scope,
    related (declareFunction place name params body scope)
      (Run.declareFunction name params body scope)
  native : ∀ native, related (of (Run.native settings native)) (Run.native settings native)
  called : ∀ line frame {bindings : Bindings} parent {body : ScopeId → Recorded Signal}
    {run : ScopeId → Run Signal}, bindings.Meets property →
    (∀ scope, related (body scope) (run scope)) →
    related
      (do
        of (Run.mayEnter settings line)
        let scope ← of (Run.enter bindings parent)
        inFrame frame (body scope))
      (do
        Run.mayEnter settings line
        let scope ← Run.enter bindings parent
        Run.inFrame frame (run scope))

/-- All parts of the evaluator are related at a budget. -/
structure Related (settings : Settings) (property : Closure → Prop)
    (related : {α : Type} → [Carrier α] → Recorded α → Run α → Prop) (fuel : Nat) : Prop where
  evaluate : ∀ scope expr, related (evaluate settings scope fuel expr)
    (Interpreter.evaluate settings scope fuel expr)
  evaluateAll : ∀ scope exprs, related (evaluateAll settings scope fuel exprs)
    (Interpreter.evaluateAll settings scope fuel exprs)
  call : ∀ callee {arguments} line, (∀ value ∈ arguments, Value.Meets property value) →
    related (call settings fuel callee arguments line)
      (Interpreter.call settings fuel callee arguments line)
  execute : ∀ scope stmt, related (execute settings scope fuel stmt)
    (Interpreter.execute settings scope fuel stmt)
  executeAll : ∀ scope stmts, related (executeAll settings scope fuel stmts)
    (Interpreter.executeAll settings scope fuel stmts)
  repeatWhile : ∀ scope condition body, related (repeatWhile settings scope fuel condition body)
    (Interpreter.repeatWhile settings scope fuel condition body)

namespace Respected

variable {settings : Settings} {related : {α : Type} → [Carrier α] → Recorded α → Run α → Prop}
  (respected : Respected settings property related)
include respected

theorem lift (line : Nat) {result : Except RuntimeFault Value}
    (held : ∀ value, result = .ok value → value.Meets property) :
    related (of (Run.lift line result)) (Run.lift line result) := by
  cases result with
  | ok value => exact respected.pure value (held value rfl)
  | error fault => exact respected.fail line fault

theorem exhausted_zero : Related settings property related 0 := by
  constructor
  all_goals
    intros
    exact respected.exhausted

variable {fuel : Nat} (ih : Related settings property related fuel)
include ih

theorem evaluate_succ (scope : ScopeId) (expr : Expr Place) :
    related (Recorded.evaluate settings scope (fuel + 1) expr)
      (Interpreter.evaluate settings scope (fuel + 1) expr) := by
  apply respected.giving
  cases expr with
  | literal place value => exact respected.pure _ (Value.ofLiteral_meets value)
  | grouping place inner => exact ih.evaluate scope inner
  | unary place operator operand =>
    exact respected.bind (ih.evaluate scope operand) fun _ _ =>
      respected.lift _ fun _ => UnaryOperator.apply_meets
  | binary place operator left right =>
    exact respected.bind (ih.evaluate scope left) fun _ _ =>
      respected.bind (ih.evaluate scope right) fun _ _ =>
        respected.lift _ fun _ => BinaryOperator.apply_meets
  | logical place operator left right =>
    cases operator with
    | and =>
      apply respected.bind (ih.evaluate scope left)
      intro first held
      split
      · exact ih.evaluate scope right
      · exact respected.pure first held
    | or =>
      apply respected.bind (ih.evaluate scope left)
      intro first held
      split
      · exact respected.pure first held
      · exact ih.evaluate scope right
  | name place name => exact respected.get _ _ _
  | assign place name value =>
    exact respected.bind (ih.evaluate scope value) fun value held =>
      respected.bind (respected.assign _ _ _ held) fun _ _ => respected.pure value held
  | call place callee arguments =>
    exact respected.bind (ih.evaluate scope callee) fun callee _ =>
      respected.bind (ih.evaluateAll scope arguments) fun _ held => ih.call callee _ held

theorem evaluateAll_succ (scope : ScopeId) (exprs : List (Expr Place)) :
    related (Recorded.evaluateAll settings scope (fuel + 1) exprs)
      (Interpreter.evaluateAll settings scope (fuel + 1) exprs) := by
  cases exprs with
  | nil =>
    apply respected.pure
    rintro value ⟨⟩
  | cons expr rest =>
    refine respected.bind (ih.evaluate scope expr) fun value held =>
      respected.bind (ih.evaluateAll scope rest) fun values all => respected.pure _ ?_
    intro other member
    rcases List.mem_cons.mp member with rfl | later
    · exact held
    · exact all other later

theorem call_succ (callee : Value) {arguments : List Value} (line : Nat)
    (held : ∀ value ∈ arguments, value.Meets property) :
    related (Recorded.call settings (fuel + 1) callee arguments line)
      (Interpreter.call settings (fuel + 1) callee arguments line) := by
  cases callee with
  | function closure =>
    have entered := respected.called line ⟨closure.name, line⟩ closure.scope
      (Bindings.Meets.ofArguments closure.params held) fun scope => ih.executeAll scope closure.body
    simp only [Recorded.call, Interpreter.call]
    split
    · exact respected.bind (respected.fail _ _) fun _ _ => entered
    · exact entered
  | native native =>
    simp only [Recorded.call, Interpreter.call]
    split
    · exact respected.bind (respected.fail _ _) fun _ _ => respected.native native
    · exact respected.native native
  | nil | bool | number | string => exact respected.fail _ _

theorem execute_succ (scope : ScopeId) (stmt : Stmt Place) :
    related (Recorded.execute settings scope (fuel + 1) stmt)
      (Interpreter.execute settings scope (fuel + 1) stmt) := by
  cases stmt with
  | expression place expr =>
    exact respected.bind (ih.evaluate scope expr) fun _ _ => respected.pure _ trivial
  | print place expr =>
    exact respected.bind (ih.evaluate scope expr) fun value _ =>
      respected.bind (respected.print value) fun _ _ => respected.pure _ trivial
  | declare place name initial =>
    cases initial with
    | none =>
      refine respected.bind (respected.bindName name scope ?_) fun _ _ => respected.pure _ trivial
      rintro own ⟨⟩
    | some initial =>
      refine respected.bind (ih.evaluate scope initial) fun value held =>
        respected.bind (respected.bindName name scope ?_) fun _ _ => respected.pure _ trivial
      rintro own ⟨⟩
      exact held
  | block place body =>
    refine respected.bind (respected.enter scope ?_) fun inner _ => ih.executeAll inner body
    rintro name value ⟨⟩
  | ifThen place condition body =>
    apply respected.bind (ih.evaluate scope condition)
    intro value _
    split
    · exact ih.execute scope body
    · exact respected.pure _ trivial
  | ifElse place condition body otherwise =>
    apply respected.bind (ih.evaluate scope condition)
    intro value _
    split
    · exact ih.execute scope body
    · exact ih.execute scope otherwise
  | whileLoop place condition body => exact ih.repeatWhile scope condition body
  | function place name params body =>
    exact respected.bind (respected.declareFunction place name params body scope) fun _ _ =>
      respected.pure _ trivial
  | returnValue place value =>
    cases value with
    | none => exact respected.pure _ trivial
    | some expr =>
      exact respected.bind (ih.evaluate scope expr) fun _ held => respected.pure _ held
  | breakLoop place => exact respected.pure _ trivial
  | continueLoop place => exact respected.pure _ trivial

theorem executeAll_succ (scope : ScopeId) (stmts : List (Stmt Place)) :
    related (Recorded.executeAll settings scope (fuel + 1) stmts)
      (Interpreter.executeAll settings scope (fuel + 1) stmts) := by
  cases stmts with
  | nil => exact respected.pure _ trivial
  | cons stmt rest =>
    apply respected.bind (ih.execute scope stmt)
    intro signal held
    cases signal with
    | normal => exact ih.executeAll scope rest
    | returning value line => exact respected.pure _ held
    | jumping jump line => exact respected.pure _ held

theorem repeatWhile_succ (scope : ScopeId) (condition : Expr Place) (body : Stmt Place) :
    related (Recorded.repeatWhile settings scope (fuel + 1) condition body)
      (Interpreter.repeatWhile settings scope (fuel + 1) condition body) := by
  apply respected.bind (ih.evaluate scope condition)
  intro value _
  split
  · apply respected.bind (ih.execute scope body)
    intro signal held
    cases signal with
    | normal => exact ih.repeatWhile scope condition body
    | returning value line => exact respected.pure _ held
    | jumping jump line =>
      cases jump with
      | breaking => exact respected.pure _ trivial
      | continuing => exact ih.repeatWhile scope condition body
  · exact respected.pure _ trivial

omit ih in
/-- The induction over the evaluator, on its budget. -/
theorem everywhere (fuel : Nat) : Related settings property related fuel := by
  induction fuel with
  | zero => exact respected.exhausted_zero
  | succ fuel ih =>
    constructor
    · exact respected.evaluate_succ ih
    · exact respected.evaluateAll_succ ih
    · exact respected.call_succ ih
    · exact respected.execute_succ ih
    · exact respected.executeAll_succ ih
    · exact respected.repeatWhile_succ ih

omit ih in
theorem executeTop (fuel : Nat) (scope : ScopeId) (stmts : List (Stmt Place)) :
    related (Recorded.executeTop settings scope fuel stmts)
      (Interpreter.executeTop settings scope fuel stmts) := by
  induction stmts with
  | nil => exact respected.pure () trivial
  | cons stmt rest ih =>
    apply respected.bind ((respected.everywhere fuel).execute scope stmt)
    intro signal _
    cases signal with
    | normal => exact ih
    | returning value line => exact respected.fail _ _
    | jumping jump line => exact respected.fail _ _

end Respected

section Sequences

variable {first : Recorded α} {next : α → Recorded β} {machine after : Machine} {events : List Event}

theorem bind_ok {value : α} (told : first machine = (events, .ok value after)) :
    (first >>= next) machine = (events ++ (next value after).1, (next value after).2) := by
  change (match first machine with
    | (events, .ok value after) => (events ++ (next value after).1, (next value after).2)
    | (events, .error stop after) => (events, .error stop after)) = _
  rw [told]

theorem bind_error {stop : Stop} (told : first machine = (events, .error stop after)) :
    (first >>= next) machine = (events, .error stop after) := by
  change (match first machine with
    | (events, .ok value after) => (events ++ (next value after).1, (next value after).2)
    | (events, .error stop after) => (events, .error stop after)) = _
  rw [told]

end Sequences

/-- A record changes nothing about the run. -/
def Follows (recorded : Recorded α) (run : Run α) : Prop :=
  ∀ machine, (recorded machine).2 = run machine

theorem Follows.bind {first : Recorded α} {run : Run α} {next : α → Recorded β} {later : α → Run β}
    (follows : first.Follows run) (rest : ∀ value, (next value).Follows (later value)) :
    (first >>= next).Follows (run >>= later) := by
  intro machine
  have same := follows machine
  rcases told : first machine with ⟨events, ⟨value, after⟩ | ⟨stop, after⟩⟩
  · rw [told] at same
    rw [bind_ok told, Sequencing.bind_ok same.symm]
    exact rest value after
  · rw [told] at same
    rw [bind_error told, Sequencing.bind_error same.symm]

theorem Follows.giving {recorded : Recorded Value} {run : Run Value}
    (follows : recorded.Follows run) : (giving recorded).Follows run := by
  intro machine
  rw [← follows machine, Recorded.giving]
  split <;> rename_i told <;> rw [told]

theorem Follows.inFrame (frame : Frame) {body : Recorded Signal} {run : Run Signal}
    (follows : body.Follows run) : (inFrame frame body).Follows (Run.inFrame frame run) := by
  intro machine
  have same : (fun machine => (body machine).2) = run := funext follows
  change Run.inFrame frame (fun machine => (body machine).2) machine = _
  rw [same]

theorem follows_respected (settings : Settings) :
    Respected settings (fun _ => True) Follows where
  exhausted _ := rfl
  pure _ _ _ := rfl
  bind follows rest := .bind follows fun value => rest value (Carrier.any value)
  fail _ _ _ := rfl
  giving := .giving
  get _ _ _ _ := rfl
  assign _ _ _ _ _ _ := rfl
  bindName _ _ _ _ _ := rfl
  enter _ _ _ := rfl
  print _ _ := rfl
  declareFunction _ _ _ _ _ _ := rfl
  native _ _ := rfl
  called _ frame _ _ _ _ _ follows :=
    .bind (fun _ => rfl) fun _ => .bind (fun _ => rfl) fun scope => .inFrame frame (follows scope)

end Recorded

namespace Session

/-- What is told of the run of a source. One that is no program does nothing. -/
def record (fuel : Nat) (source : String) (session : Session) : List Event :=
  match Program.ofSource source with
  | .error _ => []
  | .ok program =>
    (Recorded.executeTop session.settings session.globals fuel program
      { session.machine with printed := #[] }).1

/-- What has been told of a session since it started. A step may have ended with an error. -/
inductive History (settings : Settings) : List Event → Session → Prop where
  | start : History settings [.moment (start settings).machine] (start settings)
  | step {past : List Event} {session : Session} {fuel : Nat} {source : String}
      {outcome : Outcome (List Diagnostic)} : History settings past session →
      session.run fuel source = .ok outcome →
      History settings (past ++ session.record fuel source) outcome.session

/-- The record of a source goes up to the machine that the session has afterwards. -/
theorem record_spec (fuel : Nat) (source : String) (session : Session) :
    (session.record fuel source = [] ∧
      ∀ outcome, session.run fuel source = .ok outcome → outcome.session = session) ∨
    ∃ program events result,
      Recorded.executeTop session.settings session.globals fuel program
        { session.machine with printed := #[] } = (events, result) ∧
      session.record fuel source = events ∧
      ∀ outcome, session.run fuel source = .ok outcome →
        outcome.session = { session with machine := last result } := by
  cases parsed : Program.ofSource source with
  | error diagnostics =>
    refine .inl ⟨by rw [record, parsed], fun outcome ran => ?_⟩
    rw [run_rejected parsed] at ran
    cases ran
    rfl
  | ok program =>
    refine .inr ⟨program, _, _, rfl, by rw [record, parsed], fun outcome ran => ?_⟩
    obtain ⟨after, done, rfl⟩ := (run_accepted parsed).mp ran
    obtain ⟨machine, ended, -, same⟩ := perform_eq_ok.mp done
    have follows := (Recorded.follows_respected session.settings).executeTop fuel session.globals program
    rw [follows, ended]
    simpa only [diagnose, Proofs.DepthLimit.last_ended] using same

theorem History.settings_eq {settings : Settings} {past : List Event} {session : Session}
    (history : History settings past session) : session.settings = settings := by
  induction history with
  | start => rfl
  | @step past session fuel source outcome history ran ih =>
    rcases record_spec fuel source session with ⟨-, same⟩ | ⟨_, _, _, -, -, same⟩
    all_goals
      rw [same outcome ran]
      exact ih

end Session
end Lox
