/-!
The numbered kinds of error, one series for each phase of a run.
-/

namespace Lox

inductive Phase where
  | lexing | parsing | running
  deriving DecidableEq, Repr

inductive Code where
  | unterminatedString | unexpectedCharacter | unterminatedComment
  | expectedToken | expectedExpression | invalidTarget | expectedIdentifier | tooManyEntries
  | typeError | divisionByZero | undefinedVariable | uninitializedVariable | notCallable
  | arityMismatch | outsideLoop | outsideFunction | stackOverflow
  deriving DecidableEq, Repr

namespace Code

def all : List Code :=
  [.unterminatedString, .unexpectedCharacter, .unterminatedComment,
    .expectedToken, .expectedExpression, .invalidTarget, .expectedIdentifier, .tooManyEntries,
    .typeError, .divisionByZero, .undefinedVariable, .uninitializedVariable, .notCallable,
    .arityMismatch, .outsideLoop, .outsideFunction, .stackOverflow]

def name : Code → String
  | .unterminatedString => "E0001"
  | .unexpectedCharacter => "E0002"
  | .unterminatedComment => "E0003"
  | .expectedToken => "E1001"
  | .expectedExpression => "E1002"
  | .invalidTarget => "E1003"
  | .expectedIdentifier => "E1004"
  | .tooManyEntries => "E1005"
  | .typeError => "E6001"
  | .divisionByZero => "E6002"
  | .undefinedVariable => "E6003"
  | .uninitializedVariable => "E6004"
  | .notCallable => "E6005"
  | .arityMismatch => "E6006"
  | .outsideLoop => "E6007"
  | .outsideFunction => "E6008"
  | .stackOverflow => "E6009"

def description : Code → String
  | .unterminatedString => "unterminated string literal"
  | .unexpectedCharacter => "unexpected character in source"
  | .unterminatedComment => "unterminated block comment"
  | .expectedToken => "expected a specific token"
  | .expectedExpression => "expected an expression"
  | .invalidTarget => "invalid assignment target"
  | .expectedIdentifier => "expected an identifier"
  | .tooManyEntries => "too many arguments or parameters"
  | .typeError => "operand has the wrong type"
  | .divisionByZero => "division by zero"
  | .undefinedVariable => "undefined variable"
  | .uninitializedVariable => "variable read before initialization"
  | .notCallable => "value is not callable"
  | .arityMismatch => "wrong number of arguments"
  | .outsideLoop => "'break' or 'continue' outside of a loop"
  | .outsideFunction => "'return' outside of a function"
  | .stackOverflow => "maximum recursion depth exceeded"

def phase : Code → Phase
  | .unterminatedString | .unexpectedCharacter | .unterminatedComment => .lexing
  | .expectedToken | .expectedExpression | .invalidTarget | .expectedIdentifier
  | .tooManyEntries => .parsing
  | .typeError | .divisionByZero | .undefinedVariable | .uninitializedVariable | .notCallable
  | .arityMismatch | .outsideLoop | .outsideFunction | .stackOverflow => .running

/-- Codes are read without regard to case. -/
def ofName? (text : String) : Option Code := all.find? fun code => code.name == text.toUpper

end Code
end Lox
