import Lox.Scope

/-!
Running programs. Evaluation follows the tree in the scope it is given; what
lasts between two steps is the machine. Nested steps count down a budget. A run
that uses it up has no outcome, which is told apart from an error of the
program.
-/

namespace Lox

/-- What stays the same throughout a run: the greatest depth of calls, if there
is one, and the readings of the clock. -/
structure Settings where
  maxDepth : Option Nat
  clock : Nat → Float

/-- What a run changes: the scopes, the lines that were printed, how deep calls
are nested, and how many functions were made and clock readings taken. -/
structure Machine where
  heap : Heap
  printed : Array String
  depth : Nat
  functions : Nat
  readings : Nat

/-- Why a run stops early. -/
inductive Stop where
  | failed (error : RuntimeError)
  | exhausted
  | dangling

abbrev Run := EStateM Stop Machine

/-- What a statement does to those after it. -/
inductive Signal where
  | normal
  | returning (value : Value) (line : Nat)
  | jumping (jump : Jump) (line : Nat)

/-- What a failed access to a variable is as an outcome of a run. -/
def ScopeError.stop (line : Nat) (name : String) : ScopeError → Stop
  | .undefined => .failed (.ofFault line (.undefinedVariable name))
  | .uninitialized => .failed (.ofFault line (.uninitializedVariable name))
  | .dangling => .dangling

namespace Run

def fail {α : Type} (line : Nat) (fault : RuntimeFault) : Run α := fun machine =>
  .error (.failed (.ofFault line fault)) machine

@[inline] def lift {α : Type} (line : Nat) : Except RuntimeFault α → Run α
  | .ok value => pure value
  | .error fault => fail line fault

def get (line : Nat) (name : String) (scope : ScopeId) : Run Value := fun machine =>
  match machine.heap.get name scope with
  | .ok value => .ok value machine
  | .error error => .error (error.stop line name) machine

/-- The binding is found first, so that the heap is changed in place. -/
def assign (line : Nat) (name : String) (value : Value) (scope : ScopeId) : Run Unit :=
  fun machine =>
    match machine.heap.find name scope with
    | .ok (owner, _) => .ok () { machine with heap := machine.heap.define name value owner }
    | .error error => .error (error.stop line name) machine

def bind (name : String) (value : Option Value) (scope : ScopeId) : Run Unit := fun machine =>
  if scope < machine.heap.size then
    .ok () { machine with heap := machine.heap.bind name value scope }
  else .error .dangling machine

/-- A new scope inside another one. -/
def enter (bindings : Bindings) (parent : ScopeId) : Run ScopeId := fun machine =>
  if parent < machine.heap.size then
    .ok machine.heap.size { machine with heap := machine.heap.push ⟨bindings, some parent⟩ }
  else .error .dangling machine

def print (value : Value) : Run Unit := fun machine =>
  .ok () { machine with printed := machine.printed.push value.text }

/-- The number of a function that is about to be made. -/
def newFunction : Run Nat := fun machine =>
  .ok machine.functions { machine with functions := machine.functions + 1 }

/-- Makes a function and binds its name. -/
def declareFunction (name : String) (params : List String) (body : List (Stmt Place))
    (scope : ScopeId) : Run Unit := do
  let id ← newFunction
  Run.bind name (some (.function ⟨id, name, params, body, scope⟩)) scope

def native (settings : Settings) : Native → Run Value
  | .clock => fun machine =>
    .ok (.number (settings.clock machine.readings))
      { machine with readings := machine.readings + 1 }

/-- Whether another call may begin. -/
def mayEnter (settings : Settings) (line : Nat) : Run Unit := fun machine =>
  match settings.maxDepth with
  | some limit =>
    if limit ≤ machine.depth then .error (.failed (.ofFault line (.stackOverflow limit))) machine
    else .ok () machine
  | none => .ok () machine

/-- The outcome of a call by the signal of its body. A jump that leaves the body
is an error of the call. -/
def finish (frame : Frame) : Signal → Except Stop Value
  | .normal => .ok .nil
  | .returning value _ => .ok value
  | .jumping jump line =>
    .error (.failed ((RuntimeError.ofFault line (.outsideLoop jump)).within frame))

/-- Runs the body of a call one level deeper. -/
@[inline] def inFrame (frame : Frame) (body : Run Signal) : Run Value := fun machine =>
  match body { machine with depth := machine.depth + 1 } with
  | .ok signal machine =>
    let machine := { machine with depth := machine.depth - 1 }
    match finish frame signal with
    | .ok value => .ok value machine
    | .error stop => .error stop machine
  | .error (.failed error) machine =>
    .error (.failed (error.within frame)) { machine with depth := machine.depth - 1 }
  | .error stop machine => .error stop { machine with depth := machine.depth - 1 }

end Run

namespace Interpreter

variable (settings : Settings)

mutual

def evaluate (scope : ScopeId) : Nat → Expr Place → Run Value
  | 0, _ => throw .exhausted
  | fuel + 1, expr =>
    match expr with
    | .literal _ value => pure (.ofLiteral value)
    | .grouping _ inner => evaluate scope fuel inner
    | .unary place operator operand => do
      let value ← evaluate scope fuel operand
      Run.lift place.line (operator.apply value)
    | .binary place operator left right => do
      let first ← evaluate scope fuel left
      let second ← evaluate scope fuel right
      Run.lift place.line (operator.apply first second)
    | .logical _ .or left right => do
      let first ← evaluate scope fuel left
      if first.isTruthy then return first else evaluate scope fuel right
    | .logical _ .and left right => do
      let first ← evaluate scope fuel left
      if first.isTruthy then evaluate scope fuel right else return first
    | .name place name => Run.get place.line name scope
    | .assign place name value => do
      let value ← evaluate scope fuel value
      Run.assign place.line name value scope
      return value
    | .call place callee arguments => do
      let callee ← evaluate scope fuel callee
      let arguments ← evaluateAll scope fuel arguments
      call fuel callee arguments place.line
termination_by structural fuel => fuel

def evaluateAll (scope : ScopeId) : Nat → List (Expr Place) → Run (List Value)
  | 0, _ => throw .exhausted
  | _ + 1, [] => pure []
  | fuel + 1, expr :: rest => do
    let value ← evaluate scope fuel expr
    let values ← evaluateAll scope fuel rest
    return value :: values
termination_by structural fuel => fuel

/-- The callee, the number of arguments and the depth are checked in this
order. -/
def call : Nat → Value → List Value → Nat → Run Value
  | 0, _, _, _ => throw .exhausted
  | fuel + 1, callee, arguments, line =>
    match callee with
    | .function closure => do
      if closure.arity ≠ arguments.length then
        Run.fail line (.arityMismatch closure.name closure.arity arguments.length)
      Run.mayEnter settings line
      let bindings := (closure.params.zip arguments).foldl
        (fun bindings (name, value) => Bindings.set name (some value) bindings) []
      let scope ← Run.enter bindings closure.scope
      Run.inFrame ⟨closure.name, line⟩ (executeAll scope fuel closure.body)
    | .native native => do
      if native.arity ≠ arguments.length then
        Run.fail line (.arityMismatch native.name native.arity arguments.length)
      Run.native settings native
    | other => Run.fail line (.notCallable other.typeName)
termination_by structural fuel => fuel

def execute (scope : ScopeId) : Nat → Stmt Place → Run Signal
  | 0, _ => throw .exhausted
  | fuel + 1, stmt =>
    match stmt with
    | .expression _ expr => do
      let _ ← evaluate scope fuel expr
      return .normal
    | .print _ expr => do
      let value ← evaluate scope fuel expr
      Run.print value
      return .normal
    | .declare _ name none => do
      Run.bind name none scope
      return .normal
    | .declare _ name (some initial) => do
      let value ← evaluate scope fuel initial
      Run.bind name (some value) scope
      return .normal
    | .block _ body => do
      let inner ← Run.enter [] scope
      executeAll inner fuel body
    | .ifThen _ condition body => do
      let value ← evaluate scope fuel condition
      if value.isTruthy then execute scope fuel body else return .normal
    | .ifElse _ condition body other => do
      let value ← evaluate scope fuel condition
      if value.isTruthy then execute scope fuel body else execute scope fuel other
    | .whileLoop _ condition body => repeatWhile scope fuel condition body
    | .function _ name params body => do
      Run.declareFunction name params body scope
      return .normal
    | .returnValue place none => return .returning .nil place.line
    | .returnValue place (some expr) => do
      let value ← evaluate scope fuel expr
      return .returning value place.line
    | .breakLoop place => return .jumping .breaking place.line
    | .continueLoop place => return .jumping .continuing place.line
termination_by structural fuel => fuel

/-- Statements one after another, up to one that signals. -/
def executeAll (scope : ScopeId) : Nat → List (Stmt Place) → Run Signal
  | 0, _ => throw .exhausted
  | _ + 1, [] => return .normal
  | fuel + 1, stmt :: rest => do
    match ← execute scope fuel stmt with
    | .normal => executeAll scope fuel rest
    | signal => return signal
termination_by structural fuel => fuel

def repeatWhile (scope : ScopeId) : Nat → Expr Place → Stmt Place → Run Signal
  | 0, _, _ => throw .exhausted
  | fuel + 1, condition, body => do
    let value ← evaluate scope fuel condition
    if value.isTruthy then
      match ← execute scope fuel body with
      | .normal | .jumping .continuing _ => repeatWhile scope fuel condition body
      | .jumping .breaking _ => return .normal
      | signal => return signal
    else return .normal
termination_by structural fuel => fuel

end

/-- Statements outside of every function and loop. A signal that gets here is an
error. -/
def executeTop (scope : ScopeId) (fuel : Nat) : List (Stmt Place) → Run Unit
  | [] => pure ()
  | stmt :: rest => do
    match ← execute settings scope fuel stmt with
    | .normal => executeTop scope fuel rest
    | .jumping jump line => Run.fail line (.outsideLoop jump)
    | .returning _ line => Run.fail line .outsideFunction

end Interpreter
end Lox
