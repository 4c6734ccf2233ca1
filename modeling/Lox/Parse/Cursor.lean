import Lox.Parse.Error

/-!
A place in a sequence of tokens that ends in the end of the input. The cursor
looks at one token and remembers the one before it; it moves forward and never
past the end.
-/

namespace Lox

structure Cursor where
  previous : Token
  current : Token
  ahead : List Token

namespace Cursor

/-- Before the first step the first token also counts as the previous one. -/
def ofTokens : List Token → Cursor
  | [] => ⟨.endOfInput 1 0, .endOfInput 1 0, []⟩
  | first :: rest => ⟨first, first, rest⟩

def atEnd (cursor : Cursor) : Bool := cursor.current.isEof

/-- Whether the current token is of a kind, whatever it carries. -/
def check (cursor : Cursor) (kind : TokenKind) : Bool := cursor.current.kind.same kind

/-- The step to the next token. There is none from the end of the input. -/
def advance (cursor : Cursor) : Cursor :=
  if cursor.atEnd then cursor
  else
    match cursor.ahead with
    | [] => cursor
    | next :: ahead => ⟨cursor.current, next, ahead⟩

/-- A step over a token of the kind, if there is one. -/
def eat (cursor : Cursor) (kind : TokenKind) : Bool × Cursor :=
  if cursor.check kind then (true, cursor.advance) else (false, cursor)

/-- The error that something is wrong with the current token. -/
def errorHere (cursor : Cursor) (code : Code) (message : String) : ParseError :=
  .ofToken cursor.current code message

def expect (cursor : Cursor) (kind : TokenKind) (message : String) :
    Except ParseError (Token × Cursor) :=
  if cursor.check kind then .ok (cursor.current, cursor.advance)
  else .error (cursor.errorHere .expectedToken message)

def expectName (cursor : Cursor) (message : String) : Except ParseError (String × Cursor) :=
  match cursor.current.kind with
  | .identifier name => .ok (name, cursor.advance)
  | _ => .error (cursor.errorHere .expectedIdentifier message)

/-- The keywords that begin a declaration or a statement, where parsing may be
taken up again. -/
def declarationStart : KindSet :=
  .ofList (List.map TokenKind.keyword
    [.classWord, .funWord, .varWord, .forWord, .ifWord, .whileWord, .printWord, .returnWord])

/-- Whether a declaration is likely to begin at the current token. -/
def atBoundary (cursor : Cursor) : Bool :=
  cursor.previous.kind.same (.symbol .semicolon) || declarationStart.contains cursor.current.kind

/-- Steps to the nearest boundary, which may be here. -/
def skip (previous current : Token) (ahead : List Token) : Cursor :=
  let cursor : Cursor := ⟨previous, current, ahead⟩
  if cursor.atEnd || cursor.atBoundary then cursor
  else
    match ahead with
    | [] => cursor
    | next :: ahead => skip current next ahead

/-- Steps past a token that is in error to the nearest boundary behind it. -/
def synchronize (cursor : Cursor) : Cursor :=
  let next := cursor.advance
  skip next.previous next.current next.ahead

end Cursor
end Lox
