import Lox.Diagnostic
import Lox.Token

/-!
What is wrong with a sequence of tokens. Every such error stands at a token.
-/

namespace Lox

structure ParseError where
  code : Code
  message : String
  line : Nat
  span : Span
  lexeme : Option String
  deriving DecidableEq, Repr

namespace ParseError

/-- The end of the input has no text to show. -/
def ofToken (token : Token) (code : Code) (message : String) : ParseError where
  code := code
  message := message
  line := token.line
  span := token.span
  lexeme := if token.isEof then none else some token.lexeme

def location (error : ParseError) : String := Diagnostic.place error.lexeme

def diagnostic (error : ParseError) : Diagnostic where
  code := error.code
  message := error.message
  line := some error.line
  location := some error.location
  notes := []

def text (error : ParseError) : String :=
  s!"[line {error.line}] error {error.location}: {error.message}"

end ParseError
end Lox
