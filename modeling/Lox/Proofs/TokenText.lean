import Lox.Proofs.NumberText

/-! Tokens are read back as they are written. What the lexer finds in a source can be written out
again, and with a delimiter behind it is read as the token that it was. -/

namespace Lox

/-- How a token of a kind is written. -/
def TokenKind.spelled : TokenKind → List Char
  | .symbol sign => sign.spelling.toList
  | .identifier name => name.toList
  | .string contents => '"' :: (contents.toList ++ ['"'])
  | .number value => (Number.text value).toList
  | .keyword word => word.spelling.toList
  | .eof => []

/-- Letters, digits and underscores, and no digit in front. -/
def isWord : List Char → Bool
  | [] => false
  | first :: rest => Cut.isWordStart first && rest.all Cut.isWordPart

/-- What the lexer can find. A minus sign is a token of its own, and so numbers have none. -/
def TokenKind.Legible : TokenKind → Prop
  | .identifier name => isWord name.toList ∧ Keyword.ofWord? name = none
  | .string contents => '"' ∉ contents.toList
  | .number value => Number.isNegative value = false
  | .symbol _ | .keyword _ => True
  | .eof => False

/-- A number that is neither infinite nor no number at all. -/
def TokenKind.isFinite : TokenKind → Bool
  | .number value => value.isFinite
  | _ => true

/-- Text that no token goes on with. -/
def Cut.Delimited (rest : List Char) : Prop :=
  ∀ char ∈ rest.head?, char ∈ [' ', ')', '\n']

namespace Cut

/-- The first piece of a text that may be empty. -/
def ofChars? : List Char → Option Cut
  | [] => none
  | first :: rest => some (ofText first rest)

theorem ofText_word {first : Char} (starts : isWordStart first = true) (rest : List Char) :
    ofText first rest = word (first :: rest) := by
  have blank : ¬ isBlank first = true := by
    simp only [isBlank, Bool.or_eq_true, beq_iff_eq]
    rintro ((((rfl | rfl) | rfl) | rfl) | rfl) <;> contradiction
  unfold ofText
  rw [if_neg blank, if_pos starts]

theorem ofChars?_word {chars rest : List Char} (proper : isWord chars = true)
    (delimited : Delimited rest) : ofChars? (chars ++ rest) =
      some ⟨.token (match Keyword.ofWord? (String.ofList chars) with
        | some keyword => .keyword keyword
        | none => .identifier (String.ofList chars)), chars, rest⟩ := by
  cases chars with
  | nil => cases proper
  | cons first behind =>
    obtain ⟨starts, parts⟩ := Bool.and_eq_true_iff.mp proper
    have all : ∀ char ∈ first :: behind, isWordPart char = true := by
      intro char member
      rcases List.mem_cons.mp member with rfl | inside
      · exact isWordPart_of_start starts
      · exact List.all_eq_true.mp parts char inside
    have ends : rest.takeWhile isWordPart = [] ∧ rest.dropWhile isWordPart = rest := by
      cases rest with
      | nil => exact ⟨rfl, rfl⟩
      | cons char rest =>
        have other : ¬ isWordPart char = true := by
          have one := delimited char rfl
          simp only [List.mem_cons, List.not_mem_nil, or_false] at one
          rcases one with rfl | rfl | rfl <;> decide
        exact ⟨List.takeWhile_cons_of_neg other, List.dropWhile_cons_of_neg other⟩
    have lexeme : (first :: behind ++ rest).takeWhile isWordPart = first :: behind := by
      rw [List.takeWhile_append_of_pos all, ends.1, List.append_nil]
    have left : (first :: behind ++ rest).dropWhile isWordPart = rest := by
      rw [List.dropWhile_append_of_pos all, ends.2]
    have cut : ofText first (behind ++ rest) = word (first :: behind ++ rest) :=
      ofText_word starts _
    rw [word, lexeme, left] at cut
    exact congrArg some cut

theorem ofChars?_symbol (sign : Symbol) {rest : List Char} (delimited : Delimited rest) :
    ofChars? (sign.spelling.toList ++ rest) =
      some ⟨.token (.symbol sign), sign.spelling.toList, rest⟩ := by
  cases rest with
  | nil => cases sign <;> rfl
  | cons char rest =>
    have one := delimited char rfl
    simp only [List.mem_cons, List.not_mem_nil, or_false] at one
    rcases one with rfl | rfl | rfl
    all_goals cases sign <;> rfl

theorem ofChars?_string {contents : String} (closed : '"' ∉ contents.toList) (rest : List Char) :
    ofChars? ('"' :: (contents.toList ++ ['"']) ++ rest) =
      some ⟨.token (.string contents), '"' :: (contents.toList ++ ['"']), rest⟩ := by
  have inside : ∀ char ∈ contents.toList, (char != '"') = true := by
    intro char member
    rw [bne_iff_ne]
    rintro rfl
    exact closed member
  have cut : string (contents.toList ++ '"' :: rest) =
      ⟨.token (.string contents), '"' :: (contents.toList ++ ['"']), rest⟩ := by
    rw [string, List.takeWhile_append_of_pos inside, List.dropWhile_append_of_pos inside]
    simp
  have same : '"' :: (contents.toList ++ ['"']) ++ rest =
      '"' :: (contents.toList ++ '"' :: rest) := by simp
  rw [same, ofChars?, ← cut]
  rfl

theorem Delimited.endsNumber {rest : List Char} (delimited : Delimited rest) : EndsNumber rest := by
  intro char first
  have one := delimited char first
  simp only [List.mem_cons, List.not_mem_nil, or_false] at one
  rcases one with rfl | rfl | rfl <;> decide

theorem ofChars?_number {value : Float} (finite : value.isFinite)
    (positive : Number.isNegative value = false) {rest : List Char} (delimited : Delimited rest) :
    ofChars? ((Number.text value).toList ++ rest) =
      some ⟨.token (.number value), (Number.text value).toList, rest⟩ := by
  have written := Number.text_finite finite
  have valued := Number.value_canonical finite
  rw [positive] at written valued
  have text : (Number.text value).toList = (Decimal.canonical (Number.magnitude value)).text := by
    rw [written, String.toList_ofList]
    rfl
  obtain ⟨first, behind, spelled, digit, -⟩ :=
    (Decimal.canonical (Number.magnitude value)).text_cons
  have front : ofChars? ((Decimal.canonical (Number.magnitude value)).text ++ rest) =
      some (number ((Decimal.canonical (Number.magnitude value)).text ++ rest)) := by
    rw [spelled]
    exact congrArg some (ofText_digit digit _)
  have same : Number.ofDecimal (Decimal.canonical (Number.magnitude value)) = value := valued
  rw [text, front, number_text _ delimited.endsNumber, same]

/-- What the lexer can find is read back as it is written. -/
theorem ofChars?_spelled {kind : TokenKind} (legible : kind.Legible) (finite : kind.isFinite)
    {rest : List Char} (delimited : Delimited rest) :
    ofChars? (kind.spelled ++ rest) = some ⟨.token kind, kind.spelled, rest⟩ := by
  cases kind with
  | symbol sign => exact ofChars?_symbol sign delimited
  | identifier name =>
    rw [TokenKind.spelled, ofChars?_word legible.1 delimited, String.ofList_toList, legible.2]
  | string contents => exact ofChars?_string legible rest
  | number value => exact ofChars?_number finite legible delimited
  | keyword word =>
    have proper : isWord word.spelling.toList = true := by cases word <;> decide
    have known : Keyword.ofWord? word.spelling = some word := by cases word <;> decide
    rw [TokenKind.spelled, ofChars?_word proper delimited, String.ofList_toList, known]
  | eof => cases legible

/-- Every token that the lexer cuts off is legible. -/
theorem ofText_legible {first : Char} {rest : List Char} {kind : TokenKind}
    (found : (ofText first rest).content = .token kind) : kind.Legible := by
  unfold ofText at found
  split at found
  · cases found
  split at found
  case isTrue starts =>
    have proper : isWord ((first :: rest).takeWhile isWordPart) = true := by
      rw [List.takeWhile_cons_of_pos (isWordPart_of_start starts)]
      exact Bool.and_eq_true_iff.mpr ⟨starts, List.all_takeWhile⟩
    simp only [word] at found
    split at found <;> cases found
    · trivial
    next none => exact ⟨by rwa [String.toList_ofList], none⟩
  split at found
  · cases found
    exact Number.isNegative_ofDecimal _
  split at found
  · unfold string at found
    split at found <;> cases found
    intro quote
    rw [String.toList_ofList] at quote
    have other := List.all_eq_true.mp List.all_takeWhile _ quote
    contradiction
  · cases found
  · unfold comment at found
    split at found <;> cases found
  · split at found
    · unfold symbol at found
      split at found <;> cases found <;> trivial
    · cases found

end Cut

/-- A piece of a source was cut off from the front of the text that its place is in front of. -/
theorem Piece.mem_collect {before : Array Piece} {offset line : Nat} {text : List Char}
    {piece : Piece} (member : piece ∈ collect before offset line text) :
    piece ∈ before ∨ ∃ front first rest, text = front ++ first :: rest ∧
      piece.span.start = offset + width front ∧ piece.content = (Cut.ofText first rest).content ∧
        piece.lexeme = (Cut.ofText first rest).lexeme := by
  fun_induction collect before offset line text with
  | case1 => exact .inl member
  | case2 before offset line first text cut line' stop ih =>
    rcases ih member with earlier | ⟨front, head, rest, split, start, content, lexeme⟩
    · rcases Array.mem_push.mp earlier with old | rfl
      · exact .inl old
      · exact .inr ⟨[], first, text, rfl, rfl, rfl, rfl⟩
    · refine .inr ⟨cut.lexeme ++ front, head, rest, ?_, ?_, content, lexeme⟩
      · rw [List.append_assoc, ← split]
        exact (Cut.ofText_from first text).split
      · rw [start, width_append, Nat.add_assoc]

theorem Piece.mem_ofSource {text : List Char} {piece : Piece} (member : piece ∈ ofSource text) :
    ∃ front first rest, text = front ++ first :: rest ∧ piece.span.start = width front ∧
      piece.content = (Cut.ofText first rest).content ∧
        piece.lexeme = (Cut.ofText first rest).lexeme := by
  rcases mem_collect (Array.mem_toList_iff.mp member) with none | cut
  · cases Array.not_mem_empty _ none
  · simpa only [Nat.zero_add] using cut

theorem Scan.legible {source : String} {token : Token} (member : token ∈ (ofSource source).tokens)
    (inner : token.kind ≠ .eof) : token.kind.Legible := by
  rcases List.mem_append.mp member with inside | last
  · obtain ⟨piece, found, some⟩ := List.mem_filterMap.mp inside
    obtain ⟨-, first, rest, -, -, same, -⟩ := Piece.mem_ofSource found
    unfold Piece.token? at some
    split at some
    next kind content =>
      cases some
      exact Cut.ofText_legible (same.symm.trans content)
    next => cases some
  · obtain rfl := List.mem_singleton.mp last
    exact absurd rfl inner

end Lox
