import Lox.Proofs.Arena
import Lox.Interpreter

/-! Running programs over flat memory. What is run is read by index from the arena that it was parsed
into, and a function takes that arena along. Otherwise runs go as those of the interpreter of trees. -/

namespace Lox.Flat

/-- A function with the arena that its parameters and its body lie in. -/
structure Closure where
  id : Nat
  name : String
  params : Range
  body : Range
  arena : Arena
  scope : ScopeId

inductive Value where
  | nil
  | bool (value : Bool)
  | number (value : Float)
  | string (contents : String)
  | function (closure : Closure)
  | native (native : Native)

namespace Value

/-- What operators and `print` see of a value. Of a function that is its number and its name. -/
def seen : Value → Lox.Value
  | .nil => .nil
  | .bool value => .bool value
  | .number value => .number value
  | .string contents => .string contents
  | .function closure => .function ⟨closure.id, closure.name, [], [], closure.scope⟩
  | .native known => .native known

/-- The value that an operator gave. No operator gives a function, whose body would lie nowhere. -/
def ofSeen : Lox.Value → Checked Value
  | .nil => .ok .nil
  | .bool value => .ok (.bool value)
  | .number value => .ok (.number value)
  | .string contents => .ok (.string contents)
  | .function _ => .error .list
  | .native known => .ok (.native known)

end Value

abbrev Bindings := List (Name × Option Value)

def Bindings.set (name : Name) (value : Option Value) : Bindings → Bindings
  | [] => [(name, value)]
  | (key, old) :: rest =>
    if key == name then (name, value) :: rest else (key, old) :: Bindings.set name value rest

/-- What a call binds its parameters to. -/
def Bindings.ofArguments (params : List Name) (arguments : List Value) : Bindings :=
  (params.zip arguments).foldl (fun bindings pair => bindings.set pair.1 (some pair.2)) []

structure Scope where
  bindings : Bindings
  parent : Option ScopeId

abbrev Heap := Array Scope

namespace Heap

def find (heap : Heap) (name : Name) (id : ScopeId) :
    Except ScopeError (ScopeId × Option Value) :=
  match heap[id]? with
  | none => .error .dangling
  | some scope =>
    match scope.bindings.lookup name with
    | some value => .ok (id, value)
    | none =>
      match scope.parent with
      | none => .error .undefined
      | some parent => if parent < id then find heap name parent else .error .dangling
termination_by id

def get (heap : Heap) (name : Name) (id : ScopeId) : Except ScopeError Value :=
  match heap.find name id with
  | .ok (_, some value) => .ok value
  | .ok (_, none) => .error .uninitialized
  | .error error => .error error

def bind (heap : Heap) (name : Name) (value : Option Value) (id : ScopeId) : Heap :=
  heap.modify id fun scope => { scope with bindings := scope.bindings.set name value }

end Heap

structure Machine where
  heap : Heap
  printed : Array String
  depth : Nat
  functions : Nat
  readings : Nat

inductive Stop where
  | failed (error : RuntimeError)
  | exhausted
  | panicked (panic : Panic)

abbrev Run := EStateM Stop Machine

inductive Signal where
  | normal
  | returning (value : Value) (line : Nat)
  | jumping (jump : Jump) (line : Nat)

/-- The greatest number of calls that can be counted. -/
def maxCalls : Nat := Nat.pow 2 64 - 1

/-- One call more than are active. With a limit on calls there is always a number for it; without one,
memory may not suffice for so many. -/
def deeper (limit : Option Nat) (depth : Nat) : Checked Nat :=
  if depth < maxCalls then .ok (depth + 1)
  else .error (if limit.isSome then .counter else .crowded)

/-- One call less. -/
def shallower (depth : Nat) : Checked Nat :=
  if 0 < depth then .ok (depth - 1) else .error .counter

namespace Run

/-- An access that ends the program if there is nothing to reach for. -/
def reach {α : Type} (result : Checked α) : Run α := fun machine =>
  match result with
  | .ok value => .ok value machine
  | .error panic => .error (.panicked panic) machine

def fail {α : Type} (line : Nat) (fault : RuntimeFault) : Run α := fun machine =>
  .error (.failed (.ofFault line fault)) machine

/-- What an operator gives. -/
def lift (line : Nat) : Except RuntimeFault Lox.Value → Run Value
  | .ok value => reach (Value.ofSeen value)
  | .error fault => fail line fault

def print (value : Value) : Run Unit := fun machine =>
  .ok () { machine with printed := machine.printed.push value.seen.text }

def bind (name : Name) (value : Option Value) (scope : ScopeId) : Run Unit := fun machine =>
  if scope < machine.heap.size then
    .ok () { machine with heap := machine.heap.bind name value scope }
  else .error (.panicked .scope) machine

def enter (bindings : Bindings) (parent : ScopeId) : Run ScopeId := fun machine =>
  if parent < machine.heap.size then
    .ok machine.heap.size { machine with heap := machine.heap.push ⟨bindings, some parent⟩ }
  else .error (.panicked .scope) machine

def newFunction : Run Nat := fun machine =>
  .ok machine.functions { machine with functions := machine.functions + 1 }

def native (settings : Settings) : Native → Run Value
  | .clock => fun machine =>
    .ok (.number (settings.clock machine.readings))
      { machine with readings := machine.readings + 1 }

def mayEnter (settings : Settings) (line : Nat) : Run Unit := fun machine =>
  match settings.maxDepth with
  | some limit =>
    if limit ≤ machine.depth then .error (.failed (.ofFault line (.stackOverflow limit))) machine
    else .ok () machine
  | none => .ok () machine

/-- The outcome of a call by the signal of its body. -/
def finish (frame : Frame) : Signal → Run Value
  | .normal => return .nil
  | .returning value _ => return value
  | .jumping jump line =>
    throw (.failed ((RuntimeError.ofFault line (.outsideLoop jump)).within frame))

/-- A change to the number of active calls. -/
def count (change : Nat → Checked Nat) : Run Unit := fun machine =>
  match change machine.depth with
  | .ok depth => .ok () { machine with depth }
  | .error panic => .error (.panicked panic) machine

/-- Runs the body of a call, and leaves its level also if it fails. -/
def leaving (frame : Frame) (body : Run Signal) : Run Value := fun machine =>
  match body machine with
  | .ok signal machine => (do
      count shallower
      finish frame signal : Run Value) machine
  | .error (.failed error) machine => (do
      count shallower
      throw (.failed (error.within frame)) : Run Value) machine
  | .error stop machine => .error stop machine

/-- Runs the body of a call one level deeper. -/
def inFrame (settings : Settings) (frame : Frame) (body : Run Signal) : Run Value := do
  count (deeper settings.maxDepth)
  leaving frame body

variable (interner : Interner)

def literal : Literal → Run Value
  | .nil => return .nil
  | .bool value => return .bool value
  | .number value => return .number value
  | .string contents => return .string (← reach (lookup interner contents))

/-- The failure to get at a variable, with its name. -/
def missing {α : Type} (line : Nat) (name : Name) (error : ScopeError) : Run α := do
  match error with
  | .undefined => fail line (.undefinedVariable (← reach (lookup interner name)))
  | .uninitialized => fail line (.uninitializedVariable (← reach (lookup interner name)))
  | .dangling => throw (.panicked .scope)

def get (line : Nat) (name : Name) (scope : ScopeId) : Run Value := fun machine =>
  match machine.heap.get name scope with
  | .ok value => .ok value machine
  | .error error => missing interner line name error machine

def assign (line : Nat) (name : Name) (value : Value) (scope : ScopeId) : Run Unit :=
  fun machine =>
    match machine.heap.find name scope with
    | .ok (owner, _) => .ok () { machine with heap := machine.heap.bind name (some value) owner }
    | .error error => missing interner line name error machine

/-- Makes a function that lies in an arena, and binds its name. -/
def declareFunction (arena : Arena) (name : Name) (params body : Range) (scope : ScopeId) :
    Run Unit := do
  let id ← newFunction
  let text ← reach (lookup interner name)
  bind name (some (.function ⟨id, text, params, body, arena, scope⟩)) scope

end Run

section Evaluation

variable (settings : Settings) (interner : Interner)

mutual

def evaluate (arena : Arena) (scope : ScopeId) : Nat → Nat → Run Value
  | 0, _ => throw .exhausted
  | fuel + 1, index => do
    let node ← Run.reach (readNode arena.exprs index)
    match node.kind with
    | .literal value => Run.literal interner value
    | .grouping inner => evaluate arena scope fuel inner
    | .unary operator operand => do
      let value ← evaluate arena scope fuel operand
      Run.lift node.place.line (operator.apply value.seen)
    | .binary operator left right => do
      let first ← evaluate arena scope fuel left
      let second ← evaluate arena scope fuel right
      Run.lift node.place.line (operator.apply first.seen second.seen)
    | .logical .or left right => do
      let first ← evaluate arena scope fuel left
      if first.seen.isTruthy then return first else evaluate arena scope fuel right
    | .logical .and left right => do
      let first ← evaluate arena scope fuel left
      if first.seen.isTruthy then evaluate arena scope fuel right else return first
    | .name name => Run.get interner node.place.line name scope
    | .assign name value => do
      let value ← evaluate arena scope fuel value
      Run.assign interner node.place.line name value scope
      return value
    | .call callee range => do
      let callee ← evaluate arena scope fuel callee
      let ids ← Run.reach (readList arena.exprLists range)
      let arguments ← evaluateAll arena scope fuel ids
      call fuel callee arguments node.place.line
termination_by structural fuel => fuel

def evaluateAll (arena : Arena) (scope : ScopeId) : Nat → List Nat → Run (List Value)
  | 0, _ => throw .exhausted
  | _ + 1, [] => pure []
  | fuel + 1, index :: rest => do
    let value ← evaluate arena scope fuel index
    let values ← evaluateAll arena scope fuel rest
    return value :: values
termination_by structural fuel => fuel

/-- A call reads the parameters and the body from the arena of the function that is called. -/
def call : Nat → Value → List Value → Nat → Run Value
  | 0, _, _, _ => throw .exhausted
  | fuel + 1, callee, arguments, line =>
    match callee with
    | .function closure => do
      if closure.params.size ≠ arguments.length then
        Run.fail line (.arityMismatch closure.name closure.params.size arguments.length)
      Run.mayEnter settings line
      let params ← Run.reach (readList closure.arena.params closure.params)
      let scope ← Run.enter (.ofArguments params arguments) closure.scope
      Run.inFrame settings ⟨closure.name, line⟩ do
        let ids ← Run.reach (readList closure.arena.stmtLists closure.body)
        executeAll closure.arena scope fuel ids
    | .native native => do
      if native.arity ≠ arguments.length then
        Run.fail line (.arityMismatch native.name native.arity arguments.length)
      Run.native settings native
    | other => Run.fail line (.notCallable other.seen.typeName)
termination_by structural fuel => fuel

def execute (arena : Arena) (scope : ScopeId) : Nat → Nat → Run Signal
  | 0, _ => throw .exhausted
  | fuel + 1, index => do
    let node ← Run.reach (readNode arena.stmts index)
    match node.kind with
    | .expression expr => do
      let _ ← evaluate arena scope fuel expr
      return .normal
    | .print expr => do
      let value ← evaluate arena scope fuel expr
      Run.print value
      return .normal
    | .declare name none => do
      Run.bind name none scope
      return .normal
    | .declare name (some initial) => do
      let value ← evaluate arena scope fuel initial
      Run.bind name (some value) scope
      return .normal
    | .block body => do
      let inner ← Run.enter [] scope
      let ids ← Run.reach (readList arena.stmtLists body)
      executeAll arena inner fuel ids
    | .branch condition body none => do
      let value ← evaluate arena scope fuel condition
      if value.seen.isTruthy then execute arena scope fuel body else return .normal
    | .branch condition body (some other) => do
      let value ← evaluate arena scope fuel condition
      if value.seen.isTruthy then execute arena scope fuel body
      else execute arena scope fuel other
    | .whileLoop condition body => repeatWhile arena scope fuel condition body
    | .function name params body => do
      Run.declareFunction interner arena name params body scope
      return .normal
    | .returnValue none => return .returning .nil node.place.line
    | .returnValue (some expr) => do
      let value ← evaluate arena scope fuel expr
      return .returning value node.place.line
    | .breakLoop => return .jumping .breaking node.place.line
    | .continueLoop => return .jumping .continuing node.place.line
termination_by structural fuel => fuel

def executeAll (arena : Arena) (scope : ScopeId) : Nat → List Nat → Run Signal
  | 0, _ => throw .exhausted
  | _ + 1, [] => return .normal
  | fuel + 1, index :: rest => do
    match ← execute arena scope fuel index with
    | .normal => executeAll arena scope fuel rest
    | signal => return signal
termination_by structural fuel => fuel

def repeatWhile (arena : Arena) (scope : ScopeId) : Nat → Nat → Nat → Run Signal
  | 0, _, _ => throw .exhausted
  | fuel + 1, condition, body => do
    let value ← evaluate arena scope fuel condition
    if value.seen.isTruthy then
      match ← execute arena scope fuel body with
      | .normal | .jumping .continuing _ => repeatWhile arena scope fuel condition body
      | .jumping .breaking _ => return .normal
      | signal => return signal
    else return .normal
termination_by structural fuel => fuel

end

def executeTop (arena : Arena) (scope : ScopeId) (fuel : Nat) : List Nat → Run Unit
  | [] => pure ()
  | index :: rest => do
    match ← execute settings interner arena scope fuel index with
    | .normal => executeTop arena scope fuel rest
    | .jumping jump line => Run.fail line (.outsideLoop jump)
    | .returning _ line => Run.fail line .outsideFunction

end Evaluation
end Lox.Flat
