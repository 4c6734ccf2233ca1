import Lox.Diagnostic

/-!
What can go wrong while a program runs, and the calls it went wrong in.
-/

namespace Lox

/-- What an operator asks of its operands. -/
inductive Requirement where
  | number | numbers | numbersOrStrings
  deriving DecidableEq, Repr

def Requirement.message : Requirement → String
  | .number => "operand must be a number"
  | .numbers => "operands must be numbers"
  | .numbersOrStrings => "operands must be two numbers or two strings"

/-- The statements that jump within a loop. -/
inductive Jump where
  | breaking | continuing
  deriving DecidableEq, Repr

def Jump.keyword : Jump → String
  | .breaking => "break"
  | .continuing => "continue"

inductive RuntimeFault where
  | typeError (requirement : Requirement)
  | divisionByZero
  | undefinedVariable (name : String)
  | uninitializedVariable (name : String)
  | notCallable (typeName : String)
  | arityMismatch (name : String) (expected got : Nat)
  | outsideLoop (jump : Jump)
  | outsideFunction
  | stackOverflow (limit : Nat)
  deriving DecidableEq, Repr

namespace RuntimeFault

def code : RuntimeFault → Code
  | .typeError _ => .typeError
  | .divisionByZero => .divisionByZero
  | .undefinedVariable _ => .undefinedVariable
  | .uninitializedVariable _ => .uninitializedVariable
  | .notCallable _ => .notCallable
  | .arityMismatch _ _ _ => .arityMismatch
  | .outsideLoop _ => .outsideLoop
  | .outsideFunction => .outsideFunction
  | .stackOverflow _ => .stackOverflow

def message : RuntimeFault → String
  | .typeError requirement => requirement.message
  | .divisionByZero => "division by zero"
  | .undefinedVariable name => s!"undefined variable '{name}'"
  | .uninitializedVariable name => s!"variable '{name}' used before initialization"
  | .notCallable typeName => s!"{typeName} is not callable"
  | .arityMismatch name expected got =>
    let noun := if expected = 1 then "argument" else "arguments"
    s!"{name} expects {expected} {noun}, got {got}"
  | .outsideLoop jump => s!"'{jump.keyword}' outside of a loop"
  | .outsideFunction => "'return' outside of a function"
  | .stackOverflow limit => s!"maximum recursion depth exceeded (limit: {limit})"

end RuntimeFault

/-- A call that was not finished: the function, and the line of the call. -/
structure Frame where
  function : String
  line : Nat
  deriving DecidableEq, Repr

/-- The innermost call comes first in the backtrace. -/
structure RuntimeError where
  fault : RuntimeFault
  line : Nat
  backtrace : Array Frame
  deriving DecidableEq, Repr

namespace RuntimeError

def ofFault (line : Nat) (fault : RuntimeFault) : RuntimeError := ⟨fault, line, #[]⟩

/-- The error, once it has passed a further call on its way out. -/
def within (error : RuntimeError) (frame : Frame) : RuntimeError :=
  { error with backtrace := error.backtrace.push frame }

def message (error : RuntimeError) : String := error.fault.message

def diagnostic (error : RuntimeError) : Diagnostic where
  code := error.fault.code
  message := error.message
  line := some error.line
  location := none
  notes := error.backtrace.toList.map fun frame =>
    s!"in call to '{frame.function}' at line {frame.line}"

def text (error : RuntimeError) : String := s!"[line {error.line}] runtime error: {error.message}"

end RuntimeError
end Lox
