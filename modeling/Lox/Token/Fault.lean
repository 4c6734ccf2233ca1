import Lox.Diagnostic
import Lox.Span

/-!
Text that is no token, and what is reported about it.
-/

namespace Lox

/-- Why a stretch of text is no token. -/
inductive Fault where
  | unexpectedCharacter | unterminatedString | unterminatedComment
  deriving DecidableEq, Repr

namespace Fault

def message : Fault → String
  | .unexpectedCharacter => "unexpected character"
  | .unterminatedString => "unterminated string"
  | .unterminatedComment => "unterminated /**/ comment"

def code : Fault → Code
  | .unexpectedCharacter => .unexpectedCharacter
  | .unterminatedString => .unterminatedString
  | .unterminatedComment => .unterminatedComment

end Fault

structure LexError where
  fault : Fault
  lexeme : String
  line : Nat
  span : Span
  deriving DecidableEq, Repr

namespace LexError

/-- Only a stray character is shown; what is unterminated lacks something at the
end of the input. -/
def location (error : LexError) : String :=
  match error.fault with
  | .unexpectedCharacter => Diagnostic.place (some error.lexeme)
  | .unterminatedString | .unterminatedComment => Diagnostic.place none

def diagnostic (error : LexError) : Diagnostic where
  code := error.fault.code
  message := error.fault.message
  line := some error.line
  location := some error.location
  notes := []

def text (error : LexError) : String :=
  s!"[line {error.line}] error {error.location}: {error.fault.message}"

end LexError
end Lox
