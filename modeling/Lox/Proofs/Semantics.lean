import Lox.Interpreter

/-! The meaning of programs as rules, without budgets. A derivation leads from the state
before a phrase to the state after it and to what came of the phrase: a value or a signal, or the
first runtime error. Rules that pass an error on come after the rule that needs no error. -/

namespace Lox.Semantics

/-- What phrases change. -/
structure State where
  heap : Heap
  printed : Array String
  functions : Nat
  readings : Nat

/-- Where a phrase stands: the scope it runs in, and how many calls it is nested in. -/
structure Context where
  settings : Settings
  depth : Nat
  scope : ScopeId

namespace State

def define (state : State) (name : String) (value : Value) (scope : ScopeId) : State :=
  { state with heap := state.heap.define name value scope }

def declare (state : State) (name : String) (scope : ScopeId) : State :=
  { state with heap := state.heap.declare name scope }

/-- A fresh scope is known by the number of those made before. -/
def fresh (state : State) : ScopeId := state.heap.size

/-- The state with an empty scope made inside another one. -/
def enter (state : State) (parent : ScopeId) : State :=
  { state with heap := state.heap.push ⟨[], some parent⟩ }

/-- Binds parameters to arguments, in the order they are written. -/
def receive (state : State) (params : List String) (arguments : List Value) (scope : ScopeId) :
    State :=
  (params.zip arguments).foldl (fun state pair => state.define pair.1 pair.2 scope) state

def print (state : State) (value : Value) : State :=
  { state with printed := state.printed.push value.text }

/-- The function that a declaration makes here, closed over the scope it is made in. -/
def closure (state : State) (name : String) (params : List String) (body : List (Stmt Place))
    (scope : ScopeId) : Closure :=
  ⟨state.functions, name, params, body, scope⟩

def declareFunction (state : State) (name : String) (params : List String)
    (body : List (Stmt Place)) (scope : ScopeId) : State :=
  let declared := state.define name (.function (state.closure name params body scope)) scope
  { declared with functions := state.functions + 1 }

def readClock (state : State) : State := { state with readings := state.readings + 1 }

end State

/-- Scopes exist once they are made, and stand inside older ones. -/
structure Encloses (heap : Heap) (outer inner : ScopeId) (scope : Scope) : Prop where
  made : heap[inner]? = some scope
  parent : scope.parent = some outer
  older : outer < inner

/-- The binding of a name that is nearest to a scope, and the scope that owns it. -/
inductive Resolves (heap : Heap) (name : String) : ScopeId → ScopeId → Option Value → Prop where
  | here {inner : ScopeId} {scope : Scope} (made : heap[inner]? = some scope)
      (bound : scope.bindings.lookup name = some binding) : Resolves heap name inner inner binding
  | outside {inner : ScopeId} (inside : Encloses heap outer inner scope)
      (unbound : scope.bindings.lookup name = none)
      (further : Resolves heap name outer owner binding) : Resolves heap name inner owner binding

/-- No scope from here outwards binds the name. -/
inductive Unbound (heap : Heap) (name : String) : ScopeId → Prop where
  | outermost {inner : ScopeId} {scope : Scope} (made : heap[inner]? = some scope)
      (unbound : scope.bindings.lookup name = none) (last : scope.parent = none) :
      Unbound heap name inner
  | outside {inner : ScopeId} (inside : Encloses heap outer inner scope)
      (unbound : scope.bindings.lookup name = none) (further : Unbound heap name outer) :
      Unbound heap name inner

def Truthy (value : Value) : Prop := value ≠ .nil ∧ value ≠ .bool false

def Falsy (value : Value) : Prop := value = .nil ∨ value = .bool false

inductive UnaryGives : UnaryOperator → Value → Except RuntimeFault Value → Prop where
  | negate : UnaryGives .negate (.number operand) (.ok (.number (-operand)))
  | negateOther (other : ∀ number, operand ≠ .number number) :
      UnaryGives .negate operand (.error (.typeError .number))
  | notTrue (holds : Truthy operand) : UnaryGives .not operand (.ok (.bool false))
  | notFalse (fails : Falsy operand) : UnaryGives .not operand (.ok (.bool true))

/-- Values that `==` takes for the same: of one kind and of equal content, functions by what made
them. -/
inductive Same : Value → Value → Prop where
  | nil : Same .nil .nil
  | bool : Same (.bool value) (.bool value)
  | number (equal : (first == second) = true) : Same (.number first) (.number second)
  | string : Same (.string contents) (.string contents)
  | function (made : first.id = second.id) : Same (.function first) (.function second)
  | native : Same (.native native) (.native native)

/-- How an operator that only numbers have orders or combines two of them. -/
inductive Calculates : BinaryOperator → Float → Float → Except RuntimeFault Value → Prop where
  | add : Calculates .add left right (.ok (.number (left + right)))
  | subtract : Calculates .subtract left right (.ok (.number (left - right)))
  | multiply : Calculates .multiply left right (.ok (.number (left * right)))
  | divide (nonzero : (right == 0) = false) :
      Calculates .divide left right (.ok (.number (left / right)))
  | divideByZero (zero : (right == 0) = true) :
      Calculates .divide left right (.error .divisionByZero)
  | less : Calculates .less left right (.ok (.bool (left < right)))
  | lessEqual : Calculates .lessEqual left right (.ok (.bool (left ≤ right)))
  | greater : Calculates .greater left right (.ok (.bool (left > right)))
  | greaterEqual : Calculates .greaterEqual left right (.ok (.bool (left ≥ right)))

def BothNumbers (left right : Value) : Prop :=
  ∃ first second, left = .number first ∧ right = .number second

def BothStrings (left right : Value) : Prop :=
  ∃ first second, left = .string first ∧ right = .string second

inductive BinaryGives : BinaryOperator → Value → Value → Except RuntimeFault Value → Prop where
  | equal (same : Same left right) : BinaryGives .equal left right (.ok (.bool true))
  | unequal (different : ¬ Same left right) : BinaryGives .equal left right (.ok (.bool false))
  | notEqual (different : ¬ Same left right) : BinaryGives .notEqual left right (.ok (.bool true))
  | notUnequal (same : Same left right) : BinaryGives .notEqual left right (.ok (.bool false))
  | join : BinaryGives .add (.string first) (.string second) (.ok (.string (first ++ second)))
  | calculate (calculated : Calculates operator first second result) :
      BinaryGives operator (.number first) (.number second) result
  | addOther (numbers : ¬ BothNumbers left right) (strings : ¬ BothStrings left right) :
      BinaryGives .add left right (.error (.typeError .numbersOrStrings))
  | other (comparing : operator ≠ .equal ∧ operator ≠ .notEqual) (adding : operator ≠ .add)
      (numbers : ¬ BothNumbers left right) :
      BinaryGives operator left right (.error (.typeError .numbers))

/-- An error of an operation becomes an error of the program on a line. -/
def onLine {α : Type} (line : Nat) : Except RuntimeFault α → Except RuntimeError α
  | .ok value => .ok value
  | .error fault => .error (.ofFault line fault)

/-- What a call makes of how its body ended. A jump may not leave the body, and errors note the
call they pass. -/
def returned (frame : Frame) : Except RuntimeError Signal → Except RuntimeError Value
  | .ok .normal => .ok .nil
  | .ok (.returning value _) => .ok value
  | .ok (.jumping jump line) => .error ((RuntimeError.ofFault line (.outsideLoop jump)).within frame)
  | .error error => .error (error.within frame)

namespace Context

def into (context : Context) (scope : ScopeId) : Context := { context with scope }

/-- Where the body of a call stands. -/
def called (context : Context) (scope : ScopeId) : Context :=
  { context with depth := context.depth + 1, scope }

/-- The limit leaves room for one more call. -/
def Allows (context : Context) : Prop :=
  ∀ limit, context.settings.maxDepth = some limit → context.depth < limit

end Context

mutual

/-- What comes of an expression. -/
inductive Evaluates : Context → State → Expr Place → State → Except RuntimeError Value → Prop where
  | literal : Evaluates context state (.literal place value) state (.ok (.ofLiteral value))
  | grouping (inner : Evaluates context state expr after result) :
      Evaluates context state (.grouping place expr) after result
  | unary (operand : Evaluates context state expr after (.ok value))
      (applied : UnaryGives operator value result) :
      Evaluates context state (.unary place operator expr) after (onLine place.line result)
  | unaryFails (operand : Evaluates context state expr after (.error error)) :
      Evaluates context state (.unary place operator expr) after (.error error)
  | binary (first : Evaluates context state left middle (.ok leftValue))
      (second : Evaluates context middle right after (.ok rightValue))
      (applied : BinaryGives operator leftValue rightValue result) :
      Evaluates context state (.binary place operator left right) after (onLine place.line result)
  | binaryLeftFails (first : Evaluates context state left after (.error error)) :
      Evaluates context state (.binary place operator left right) after (.error error)
  | binaryRightFails (first : Evaluates context state left middle (.ok leftValue))
      (second : Evaluates context middle right after (.error error)) :
      Evaluates context state (.binary place operator left right) after (.error error)
  | orLeft (first : Evaluates context state left after (.ok value)) (holds : Truthy value) :
      Evaluates context state (.logical place .or left right) after (.ok value)
  | orRight (first : Evaluates context state left middle (.ok value)) (fails : Falsy value)
      (second : Evaluates context middle right after result) :
      Evaluates context state (.logical place .or left right) after result
  | andLeft (first : Evaluates context state left after (.ok value)) (fails : Falsy value) :
      Evaluates context state (.logical place .and left right) after (.ok value)
  | andRight (first : Evaluates context state left middle (.ok value)) (holds : Truthy value)
      (second : Evaluates context middle right after result) :
      Evaluates context state (.logical place .and left right) after result
  | logicalFails (first : Evaluates context state left after (.error error)) :
      Evaluates context state (.logical place operator left right) after (.error error)
  | name (found : Resolves state.heap name context.scope owner (some value)) :
      Evaluates context state (.name place name) state (.ok value)
  | uninitialized (found : Resolves state.heap name context.scope owner none) :
      Evaluates context state (.name place name) state
        (.error (.ofFault place.line (.uninitializedVariable name)))
  | undefined (missing : Unbound state.heap name context.scope) :
      Evaluates context state (.name place name) state
        (.error (.ofFault place.line (.undefinedVariable name)))
  | assign (evaluated : Evaluates context state expr after (.ok value))
      (found : Resolves after.heap name context.scope owner binding) :
      Evaluates context state (.assign place name expr) (after.define name value owner) (.ok value)
  | assignUndefined (evaluated : Evaluates context state expr after (.ok value))
      (missing : Unbound after.heap name context.scope) :
      Evaluates context state (.assign place name expr) after
        (.error (.ofFault place.line (.undefinedVariable name)))
  | assignFails (evaluated : Evaluates context state expr after (.error error)) :
      Evaluates context state (.assign place name expr) after (.error error)
  | call (function : Evaluates context state callee middle (.ok value))
      (passed : EvaluatesAll context middle arguments before (.ok values))
      (called : Calls context before value values place.line after result) :
      Evaluates context state (.call place callee arguments) after result
  | calleeFails (function : Evaluates context state callee after (.error error)) :
      Evaluates context state (.call place callee arguments) after (.error error)
  | argumentFails (function : Evaluates context state callee middle (.ok value))
      (passed : EvaluatesAll context middle arguments after (.error error)) :
      Evaluates context state (.call place callee arguments) after (.error error)

/-- What comes of the arguments of a call, from left to right. -/
inductive EvaluatesAll :
    Context → State → List (Expr Place) → State → Except RuntimeError (List Value) → Prop where
  | nil : EvaluatesAll context state [] state (.ok [])
  | cons (first : Evaluates context state expr middle (.ok value))
      (rest : EvaluatesAll context middle exprs after (.ok values)) :
      EvaluatesAll context state (expr :: exprs) after (.ok (value :: values))
  | firstFails (first : Evaluates context state expr after (.error error)) :
      EvaluatesAll context state (expr :: exprs) after (.error error)
  | restFails (first : Evaluates context state expr middle (.ok value))
      (rest : EvaluatesAll context middle exprs after (.error error)) :
      EvaluatesAll context state (expr :: exprs) after (.error error)

/-- What comes of a call once its callee and arguments are known. The callee is looked at first,
then the number of arguments, and the depth last. -/
inductive Calls : Context → State → Value → List Value → Nat → State →
    Except RuntimeError Value → Prop where
  | notCallable (user : ∀ closure, callee ≠ .function closure)
      (native : ∀ native, callee ≠ .native native) :
      Calls context state callee arguments line state
        (.error (.ofFault line (.notCallable callee.typeName)))
  | arity {closure : Closure} (wrong : arguments.length ≠ closure.arity) :
      Calls context state (.function closure) arguments line state
        (.error (.ofFault line (.arityMismatch closure.name closure.arity arguments.length)))
  | tooDeep {closure : Closure} (right : arguments.length = closure.arity)
      (limited : context.settings.maxDepth = some limit) (deep : limit ≤ context.depth) :
      Calls context state (.function closure) arguments line state
        (.error (.ofFault line (.stackOverflow limit)))
  | user {closure : Closure} (right : arguments.length = closure.arity) (allowed : context.Allows)
      (made : closure.scope < state.heap.size)
      (ran : ExecutesAll (context.called state.fresh)
        ((state.enter closure.scope).receive closure.params arguments state.fresh)
        closure.body after result) :
      Calls context state (.function closure) arguments line after
        (returned ⟨closure.name, line⟩ result)
  | nativeArity (wrong : arguments.length ≠ native.arity) :
      Calls context state (.native native) arguments line state
        (.error (.ofFault line (.arityMismatch native.name native.arity arguments.length)))
  | clock : Calls context state (.native .clock) [] line state.readClock
      (.ok (.number (context.settings.clock state.readings)))

/-- What comes of a statement. -/
inductive Executes : Context → State → Stmt Place → State → Except RuntimeError Signal → Prop where
  | expression (evaluated : Evaluates context state expr after (.ok value)) :
      Executes context state (.expression place expr) after (.ok .normal)
  | expressionFails (evaluated : Evaluates context state expr after (.error error)) :
      Executes context state (.expression place expr) after (.error error)
  | print (evaluated : Evaluates context state expr after (.ok value)) :
      Executes context state (.print place expr) (after.print value) (.ok .normal)
  | printFails (evaluated : Evaluates context state expr after (.error error)) :
      Executes context state (.print place expr) after (.error error)
  | declare (made : context.scope < state.heap.size) :
      Executes context state (.declare place name none) (state.declare name context.scope)
        (.ok .normal)
  | define (evaluated : Evaluates context state expr after (.ok value))
      (made : context.scope < after.heap.size) :
      Executes context state (.declare place name (some expr))
        (after.define name value context.scope) (.ok .normal)
  | defineFails (evaluated : Evaluates context state expr after (.error error)) :
      Executes context state (.declare place name (some expr)) after (.error error)
  | block (made : context.scope < state.heap.size)
      (ran : ExecutesAll (context.into state.fresh) (state.enter context.scope) body after result) :
      Executes context state (.block place body) after result
  | ifThen (evaluated : Evaluates context state condition middle (.ok value)) (holds : Truthy value)
      (ran : Executes context middle body after result) :
      Executes context state (.ifThen place condition body) after result
  | ifThenNot (evaluated : Evaluates context state condition after (.ok value))
      (fails : Falsy value) :
      Executes context state (.ifThen place condition body) after (.ok .normal)
  | ifThenFails (evaluated : Evaluates context state condition after (.error error)) :
      Executes context state (.ifThen place condition body) after (.error error)
  | ifElse (evaluated : Evaluates context state condition middle (.ok value)) (holds : Truthy value)
      (ran : Executes context middle body after result) :
      Executes context state (.ifElse place condition body other) after result
  | ifElseNot (evaluated : Evaluates context state condition middle (.ok value))
      (fails : Falsy value) (ran : Executes context middle other after result) :
      Executes context state (.ifElse place condition body other) after result
  | ifElseFails (evaluated : Evaluates context state condition after (.error error)) :
      Executes context state (.ifElse place condition body other) after (.error error)
  | whileDone (evaluated : Evaluates context state condition after (.ok value))
      (fails : Falsy value) :
      Executes context state (.whileLoop place condition body) after (.ok .normal)
  | whileFails (evaluated : Evaluates context state condition after (.error error)) :
      Executes context state (.whileLoop place condition body) after (.error error)
  | whileAgain (evaluated : Evaluates context state condition middle (.ok value))
      (holds : Truthy value) (ran : Executes context middle body before (.ok signal))
      (continues : signal = .normal ∨ ∃ line, signal = .jumping .continuing line)
      (again : Executes context before (.whileLoop place condition body) after result) :
      Executes context state (.whileLoop place condition body) after result
  | whileBreak (evaluated : Evaluates context state condition middle (.ok value))
      (holds : Truthy value) (ran : Executes context middle body after (.ok (.jumping .breaking line))) :
      Executes context state (.whileLoop place condition body) after (.ok .normal)
  | whileReturn (evaluated : Evaluates context state condition middle (.ok value))
      (holds : Truthy value)
      (ran : Executes context middle body after (.ok (.returning returning line))) :
      Executes context state (.whileLoop place condition body) after (.ok (.returning returning line))
  | whileBodyFails (evaluated : Evaluates context state condition middle (.ok value))
      (holds : Truthy value) (ran : Executes context middle body after (.error error)) :
      Executes context state (.whileLoop place condition body) after (.error error)
  | function (made : context.scope < state.heap.size) :
      Executes context state (.function place name params body)
        (state.declareFunction name params body context.scope) (.ok .normal)
  | returnNothing :
      Executes context state (.returnValue place none) state (.ok (.returning .nil place.line))
  | returnValue (evaluated : Evaluates context state expr after (.ok value)) :
      Executes context state (.returnValue place (some expr)) after
        (.ok (.returning value place.line))
  | returnFails (evaluated : Evaluates context state expr after (.error error)) :
      Executes context state (.returnValue place (some expr)) after (.error error)
  | breakLoop :
      Executes context state (.breakLoop place) state (.ok (.jumping .breaking place.line))
  | continueLoop :
      Executes context state (.continueLoop place) state (.ok (.jumping .continuing place.line))

/-- What comes of statements one after another. The first that signals or fails is the last. -/
inductive ExecutesAll :
    Context → State → List (Stmt Place) → State → Except RuntimeError Signal → Prop where
  | nil : ExecutesAll context state [] state (.ok .normal)
  | cons (first : Executes context state stmt middle (.ok .normal))
      (rest : ExecutesAll context middle stmts after result) :
      ExecutesAll context state (stmt :: stmts) after result
  | signals (first : Executes context state stmt after (.ok signal)) (leaves : signal ≠ .normal) :
      ExecutesAll context state (stmt :: stmts) after (.ok signal)
  | fails (first : Executes context state stmt after (.error error)) :
      ExecutesAll context state (stmt :: stmts) after (.error error)

end

/-- What comes of a program. A signal that no loop and no call consumed is an error. -/
inductive Runs : Context → State → Program → State → Except RuntimeError Unit → Prop where
  | nil : Runs context state [] state (.ok ())
  | cons (first : Executes context state stmt middle (.ok .normal))
      (rest : Runs context middle stmts after result) : Runs context state (stmt :: stmts) after result
  | jumps (first : Executes context state stmt after (.ok (.jumping jump line))) :
      Runs context state (stmt :: stmts) after (.error (.ofFault line (.outsideLoop jump)))
  | returns (first : Executes context state stmt after (.ok (.returning value line))) :
      Runs context state (stmt :: stmts) after (.error (.ofFault line .outsideFunction))
  | fails (first : Executes context state stmt after (.error error)) :
      Runs context state (stmt :: stmts) after (.error error)

/-- An error ends a program: what stands behind it has no effect. -/
theorem Runs.append {context : Context} {state after : State} {program : Program}
    {error : RuntimeError} (ran : Runs context state program after (.error error))
    (more : Program) : Runs context state (program ++ more) after (.error error) := by
  generalize failed : (Except.error error : Except RuntimeError Unit) = result at ran
  induction ran with
  | nil => cases failed
  | cons first _ ih => exact .cons first (ih failed)
  | jumps first => exact .jumps first
  | returns first => exact .returns first
  | fails first => exact .fails first

end Lox.Semantics
