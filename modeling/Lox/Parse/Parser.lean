import Lox.Parse.Cursor
import Lox.Syntax

/-!
Parsers move a cursor and collect errors. A parser that fails leaves the cursor
at the token in error, so that parsing can be taken up again behind it. The
grammar is recursive, and its functions count down a budget of nested calls;
running out of it is told apart from failing.
-/

namespace Lox

structure Progress where
  cursor : Cursor
  errors : Array ParseError

/-- Why a parser gives no result. -/
inductive Halt where
  | failed (error : ParseError)
  | exhausted

abbrev Parser := EStateM Halt Progress

namespace Parser

@[inline] def current : Parser Token := fun progress => .ok progress.cursor.current progress

@[inline] def check (kind : TokenKind) : Parser Bool := fun progress =>
  .ok (progress.cursor.check kind) progress

@[inline] def atEnd : Parser Bool := fun progress => .ok progress.cursor.atEnd progress

@[inline] def advance : Parser Unit := fun ⟨cursor, errors⟩ => .ok () ⟨cursor.advance, errors⟩

@[inline] def eat (kind : TokenKind) : Parser Bool := fun ⟨cursor, errors⟩ =>
  match cursor.eat kind with
  | (eaten, cursor) => .ok eaten ⟨cursor, errors⟩

/-- A step of the cursor that may fail, and then leaves it where it is. -/
@[inline] def attempt {α : Type} (step : Cursor → Except ParseError (α × Cursor)) : Parser α :=
  fun ⟨cursor, errors⟩ =>
    match step cursor with
    | .ok (value, cursor) => .ok value ⟨cursor, errors⟩
    | .error error => .error (.failed error) ⟨cursor, errors⟩

def expect (kind : TokenKind) (message : String) : Parser Token := attempt (·.expect kind message)

def expectName (message : String) : Parser String := attempt (·.expectName message)

def failHere {α : Type} (code : Code) (message : String) : Parser α := fun progress =>
  .error (.failed (progress.cursor.errorHere code message)) progress

/-- An error that does not keep the parser from going on. -/
def report (error : ParseError) : Parser Unit := fun ⟨cursor, errors⟩ =>
  .ok () ⟨cursor, errors.push error⟩

def reportHere (code : Code) (message : String) : Parser Unit := fun ⟨cursor, errors⟩ =>
  .ok () ⟨cursor, errors.push (cursor.errorHere code message)⟩

/-- The span from a start to the end of the last token read. -/
@[inline] def spanFrom (start : Span) : Parser Span := fun progress =>
  .ok (start.merge progress.cursor.previous.span) progress

/-- The place of what begins with a token and ends with the last one read. -/
@[inline] def placeFrom (start : Token) : Parser Place := fun progress =>
  .ok ⟨start.line, start.span.merge progress.cursor.previous.span⟩ progress

/-- Runs a parser; if it fails, reports its error and skips to the next
boundary. -/
@[inline] def recover {α : Type} (body : Parser α) : Parser (Option α) := fun progress =>
  match body progress with
  | .ok value progress => .ok (some value) progress
  | .error (.failed error) ⟨cursor, errors⟩ => .ok none ⟨cursor.synchronize, errors.push error⟩
  | .error .exhausted progress => .error .exhausted progress

/-- How many entries the list of a call or of parameters may have. -/
def maxEntries : Nat := 255

end Parser
end Lox
