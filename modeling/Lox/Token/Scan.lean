import Lox.Number.Text
import Lox.Token
import Lox.Token.Fault

/-!
Reading a source text into tokens. The text is cut into pieces from left to
right, each as long as its rules allow. A piece is a blank, a token or a fault,
and together the pieces are the whole text.
-/

namespace Lox

/-- What a piece of the source is. Comments are blank. -/
inductive Content where
  | blank
  | token (kind : TokenKind)
  | fault (fault : Fault)
  deriving DecidableEq

/-- A piece cut from the front of a text, and the text behind it. -/
structure Cut where
  content : Content
  lexeme : List Char
  rest : List Char

namespace Cut

def isBlank (char : Char) : Bool :=
  char == ' ' || char == '\t' || char == '\r' || char == '\x0C' || char == '\n'

def isWordStart (char : Char) : Bool := char.isAlpha || char == '_'

def isWordPart (char : Char) : Bool := char.isAlphanum || char == '_'

/-- The text up to and including the first `*/`, behind what has been passed
already, and the text after it. -/
def closeComment? (passed : List Char) : List Char → Option (List Char × List Char)
  | '*' :: '/' :: rest => some (('/' :: '*' :: passed).reverse, rest)
  | char :: rest => closeComment? (char :: passed) rest
  | [] => none

def comment (rest : List Char) : Cut :=
  match closeComment? ['*', '/'] rest with
  | some (lexeme, after) => ⟨.blank, lexeme, after⟩
  | none => ⟨.fault .unterminatedComment, '/' :: '*' :: rest, []⟩

def lineComment (rest : List Char) : Cut :=
  ⟨.blank, '/' :: '/' :: rest.takeWhile (· != '\n'), rest.dropWhile (· != '\n')⟩

/-- A string runs to the next quote, across lines; nothing in it is escaped. -/
def string (rest : List Char) : Cut :=
  let contents := rest.takeWhile (· != '"')
  match rest.dropWhile (· != '"') with
  | quote :: after => ⟨.token (.string (String.ofList contents)), '"' :: contents ++ [quote], after⟩
  | [] => ⟨.fault .unterminatedString, '"' :: contents, []⟩

/-- The digits after a decimal point, which belong to a number only if there is
at least one of them. -/
def fraction : List Char → List Char
  | '.' :: rest => rest.takeWhile Char.isDigit
  | _ => []

def number (text : List Char) : Cut :=
  let whole := text.takeWhile Char.isDigit
  let after := text.dropWhile Char.isDigit
  let places := fraction after
  let lexeme := if places.isEmpty then whole else whole ++ '.' :: places
  let rest := if places.isEmpty then after else after.drop (places.length + 1)
  ⟨.token (.number (Number.ofDecimal (Decimal.ofDigits whole places))), lexeme, rest⟩

def word (text : List Char) : Cut :=
  let lexeme := text.takeWhile isWordPart
  let name := String.ofList lexeme
  let kind := match Keyword.ofWord? name with
    | some keyword => TokenKind.keyword keyword
    | none => TokenKind.identifier name
  ⟨.token kind, lexeme, text.dropWhile isWordPart⟩

/-- A symbol takes a following equals sign along where the two are a symbol. -/
def symbol (first : Char) (sign : Symbol) (rest : List Char) : Cut :=
  match sign.withEqual?, rest with
  | some double, '=' :: after => ⟨.token (.symbol double), [first, '='], after⟩
  | _, _ => ⟨.token (.symbol sign), [first], rest⟩

/-- The first piece of a text that is not empty. -/
def ofText (first : Char) (rest : List Char) : Cut :=
  if isBlank first then ⟨.blank, [first], rest⟩
  else if isWordStart first then word (first :: rest)
  else if first.isDigit then number (first :: rest)
  else
    match first, rest with
    | '"', _ => string rest
    | '/', '/' :: after => lineComment after
    | '/', '*' :: after => comment after
    | _, _ =>
      match Symbol.ofChar? first with
      | some sign => symbol first sign rest
      | none => ⟨.fault .unexpectedCharacter, [first], rest⟩

theorem closeComment?_length {passed text lexeme rest : List Char}
    (closed : closeComment? passed text = some (lexeme, rest)) : rest.length ≤ text.length := by
  induction text generalizing passed with
  | nil => simp [closeComment?] at closed
  | cons char text ih =>
    unfold closeComment? at closed
    split at closed
    · rename_i same
      cases closed
      cases same
      exact Nat.le_add_right _ 2
    · rename_i same
      cases same
      exact Nat.le_succ_of_le (ih closed)
    · contradiction

theorem dropWhile_length_le (test : Char → Bool) (text : List Char) :
    (text.dropWhile test).length ≤ text.length :=
  (List.dropWhile_sublist test).length_le

/-- A piece is never empty. -/
theorem ofText_rest_length (first : Char) (rest : List Char) :
    (ofText first rest).rest.length ≤ rest.length := by
  unfold ofText
  split
  · exact Nat.le_refl _
  split
  case isTrue starts =>
    have part : isWordPart first = true := by
      simp only [isWordStart, Bool.or_eq_true] at starts
      rcases starts with letter | score
      · simp [isWordPart, Char.isAlphanum, letter]
      · simp [isWordPart, score]
    simpa [word, part] using dropWhile_length_le isWordPart rest
  split
  case isTrue digit =>
    have shorter := dropWhile_length_le Char.isDigit rest
    simp only [number, List.dropWhile_cons, digit, ite_true]
    split
    · exact shorter
    · exact Nat.le_trans (by simp) shorter
  split
  · have shorter := dropWhile_length_le (· != '"') rest
    unfold string
    split
    · rename_i after found
      rw [found] at shorter
      exact Nat.le_of_succ_le shorter
    · exact Nat.zero_le _
  · exact Nat.le_succ_of_le (dropWhile_length_le _ _)
  · unfold comment
    split
    · rename_i closed
      exact Nat.le_succ_of_le (closeComment?_length closed)
    · exact Nat.zero_le _
  · split
    · unfold symbol
      split <;> simp
    · exact Nat.le_refl _

end Cut

/-- A piece of the source in its place. A piece sits on the line of its end. -/
structure Piece where
  content : Content
  lexeme : List Char
  line : Nat
  span : Span

namespace Piece

def width (text : List Char) : Nat := text.foldl (fun total char => total + char.utf8Size) 0

def newlines (text : List Char) : Nat := text.count '\n'

/-- The pieces of a text that starts at an offset on a line, after the pieces
before it. -/
def collect (before : Array Piece) (offset line : Nat) : List Char → Array Piece
  | [] => before
  | first :: text =>
    let cut := Cut.ofText first text
    let line := line + newlines cut.lexeme
    let stop := offset + width cut.lexeme
    collect (before.push ⟨cut.content, cut.lexeme, line, ⟨offset, stop⟩⟩) stop line cut.rest
termination_by text => text.length
decreasing_by exact Nat.lt_succ_of_le (Cut.ofText_rest_length first text)

def ofSource (source : List Char) : List Piece := (collect #[] 0 1 source).toList

def token? (piece : Piece) : Option Token :=
  match piece.content with
  | .token kind => some ⟨kind, String.ofList piece.lexeme, piece.line, piece.span⟩
  | _ => none

def error? (piece : Piece) : Option LexError :=
  match piece.content with
  | .fault fault => some ⟨fault, String.ofList piece.lexeme, piece.line, piece.span⟩
  | _ => none

end Piece

/-- The tokens of a source, the end of the input last, and its faults. -/
structure Scan where
  tokens : List Token
  errors : List LexError

def Scan.ofSource (source : String) : Scan :=
  let text := source.toList
  let pieces := Piece.ofSource text
  let eof := Token.endOfInput (1 + Piece.newlines text) (Piece.width text)
  ⟨pieces.filterMap Piece.token? ++ [eof], pieces.filterMap Piece.error?⟩

/-- The token listing, one line for each token. -/
def Scan.listing (scan : Scan) : String :=
  String.join (scan.tokens.map fun token => token.listing ++ "\n")

end Lox
