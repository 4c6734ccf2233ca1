import Lox.Diagnostic.Code

/-!
What a run reports to its user.
-/

namespace Lox

structure Diagnostic where
  code : Code
  message : String
  line : Option Nat
  location : Option String
  notes : List String
  deriving DecidableEq, Repr

/-- Where something stands that has a text, and where something stands that has
none because the input ended. -/
def Diagnostic.place : Option String → String
  | some lexeme => s!"at '{lexeme}'"
  | none => "at end"

def Diagnostic.headline (diagnostic : Diagnostic) : String :=
  s!"error[{diagnostic.code.name}]: {diagnostic.message}"

end Lox
