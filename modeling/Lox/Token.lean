import Lox.Span
import Lox.Token.Kind

/-!
A token is a kind with the text it was read from and its place in the source. A
token that spans several lines sits on the last of them.
-/

namespace Lox

structure Token where
  kind : TokenKind
  lexeme : String
  line : Nat
  span : Span
  deriving DecidableEq

namespace Token

/-- The end of the input has no text and covers nothing. -/
def endOfInput (line offset : Nat) : Token := ⟨.eof, "", line, .point offset⟩

def isEof (token : Token) : Bool :=
  match token.kind with
  | .eof => true
  | _ => false

/-- A line of the token listing. -/
def listing (token : Token) : String :=
  match token.kind with
  | .eof => s!"{token.line} {token.kind.name}"
  | _ => s!"{token.line} {token.kind.name} {token.lexeme}"

end Token
end Lox
