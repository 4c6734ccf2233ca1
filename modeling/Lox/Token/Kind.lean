/-!
What a token can be. Symbols and keywords have fixed spellings; the other kinds
carry what was written.
-/

namespace Lox

/-- Punctuation and operators. -/
inductive Symbol where
  | leftParen | rightParen | leftBrace | rightBrace
  | comma | dot | minus | plus | semicolon | slash | star | colon | question
  | bang | bangEqual | equal | equalEqual | greater | greaterEqual | less | lessEqual
  deriving DecidableEq, Repr

namespace Symbol

def all : List Symbol :=
  [.leftParen, .rightParen, .leftBrace, .rightBrace, .comma, .dot, .minus, .plus, .semicolon,
    .slash, .star, .colon, .question, .bang, .bangEqual, .equal, .equalEqual, .greater,
    .greaterEqual, .less, .lessEqual]

def spelling : Symbol → String
  | .leftParen => "(" | .rightParen => ")"
  | .leftBrace => "\x7b" | .rightBrace => "\x7d"
  | .comma => "," | .dot => "." | .minus => "-" | .plus => "+"
  | .semicolon => ";" | .slash => "/" | .star => "*" | .colon => ":" | .question => "?"
  | .bang => "!" | .bangEqual => "!="
  | .equal => "=" | .equalEqual => "=="
  | .greater => ">" | .greaterEqual => ">="
  | .less => "<" | .lessEqual => "<="

def name : Symbol → String
  | .leftParen => "LEFT_PAREN" | .rightParen => "RIGHT_PAREN"
  | .leftBrace => "LEFT_BRACE" | .rightBrace => "RIGHT_BRACE"
  | .comma => "COMMA" | .dot => "DOT" | .minus => "MINUS" | .plus => "PLUS"
  | .semicolon => "SEMICOLON" | .slash => "SLASH" | .star => "STAR"
  | .colon => "COLON" | .question => "QUESTION"
  | .bang => "BANG" | .bangEqual => "BANG_EQUAL"
  | .equal => "EQUAL" | .equalEqual => "EQUAL_EQUAL"
  | .greater => "GREATER" | .greaterEqual => "GREATER_EQUAL"
  | .less => "LESS" | .lessEqual => "LESS_EQUAL"

/-- The symbol that one character spells. -/
def ofChar? : Char → Option Symbol
  | '(' => some .leftParen | ')' => some .rightParen
  | '{' => some .leftBrace | '}' => some .rightBrace
  | ',' => some .comma | '.' => some .dot | '-' => some .minus | '+' => some .plus
  | ';' => some .semicolon | '/' => some .slash | '*' => some .star
  | ':' => some .colon | '?' => some .question
  | '!' => some .bang | '=' => some .equal | '>' => some .greater | '<' => some .less
  | _ => none

/-- The symbol that a one-character symbol becomes when an equals sign follows. -/
def withEqual? : Symbol → Option Symbol
  | .bang => some .bangEqual
  | .equal => some .equalEqual
  | .greater => some .greaterEqual
  | .less => some .lessEqual
  | _ => none

end Symbol

/-- The reserved words. -/
inductive Keyword where
  | andWord | classWord | elseWord | falseWord | funWord | forWord | ifWord | nilWord | orWord
  | printWord | returnWord | superWord | thisWord | trueWord | varWord | whileWord
  | breakWord | continueWord
  deriving DecidableEq, Repr

namespace Keyword

def all : List Keyword :=
  [.andWord, .classWord, .elseWord, .falseWord, .funWord, .forWord, .ifWord, .nilWord, .orWord,
    .printWord, .returnWord, .superWord, .thisWord, .trueWord, .varWord, .whileWord,
    .breakWord, .continueWord]

def spelling : Keyword → String
  | .andWord => "and" | .classWord => "class" | .elseWord => "else" | .falseWord => "false"
  | .funWord => "fun" | .forWord => "for" | .ifWord => "if" | .nilWord => "nil"
  | .orWord => "or" | .printWord => "print" | .returnWord => "return" | .superWord => "super"
  | .thisWord => "this" | .trueWord => "true" | .varWord => "var" | .whileWord => "while"
  | .breakWord => "break" | .continueWord => "continue"

def name : Keyword → String
  | .andWord => "AND" | .classWord => "CLASS" | .elseWord => "ELSE" | .falseWord => "FALSE"
  | .funWord => "FUN" | .forWord => "FOR" | .ifWord => "IF" | .nilWord => "NIL"
  | .orWord => "OR" | .printWord => "PRINT" | .returnWord => "RETURN" | .superWord => "SUPER"
  | .thisWord => "THIS" | .trueWord => "TRUE" | .varWord => "VAR" | .whileWord => "WHILE"
  | .breakWord => "BREAK" | .continueWord => "CONTINUE"

def ofWord? (word : String) : Option Keyword := all.find? fun keyword => keyword.spelling == word

end Keyword

inductive TokenKind where
  | symbol (sign : Symbol)
  | identifier (name : String)
  | string (contents : String)
  | number (value : Float)
  | keyword (word : Keyword)
  | eof
  deriving DecidableEq

namespace TokenKind

/-- A number for each kind that ignores what the token carries. -/
def index : TokenKind → Nat
  | .symbol sign => sign.ctorIdx
  | .identifier _ => 21
  | .string _ => 22
  | .number _ => 23
  | .keyword word => 24 + word.ctorIdx
  | .eof => 42

/-- Two tokens are of one kind whatever they carry. -/
def same (first second : TokenKind) : Bool := first.index == second.index

def name : TokenKind → String
  | .symbol sign => sign.name
  | .identifier _ => "IDENTIFIER"
  | .string _ => "STRING"
  | .number _ => "NUMBER"
  | .keyword word => word.name
  | .eof => "EOF"

/-- One kind of each number, with nothing in those that carry something. -/
def all : List TokenKind :=
  Symbol.all.map .symbol ++ [.identifier "", .string "", .number 0] ++
    Keyword.all.map .keyword ++ [.eof]

def ofName? (name : String) : Option TokenKind := all.find? fun kind => kind.name == name

end TokenKind

/-- A set of token kinds, one bit for each index. -/
structure KindSet where
  bits : Nat
  deriving DecidableEq, Repr

namespace KindSet

def empty : KindSet := ⟨0⟩

def insert (set : KindSet) (kind : TokenKind) : KindSet := ⟨set.bits ||| 1 <<< kind.index⟩

def contains (set : KindSet) (kind : TokenKind) : Bool := set.bits.testBit kind.index

def ofList (kinds : List TokenKind) : KindSet := kinds.foldl insert empty

end KindSet
end Lox
