import Lox.Token.Scan

/-! What the pieces of a source are. A piece is cut from the front of the text that is left, it is
never empty, and its content says what its characters are. -/

namespace Lox

/-- Text that stands for nothing, in front of other text. A line comment reaches to the end of its
line, a block comment to the first mark that closes it. -/
inductive Trivium (after : List Char) : List Char → Prop where
  | space (blank : char ∈ [' ', '\t', '\r', '\x0C', '\n']) : Trivium after [char]
  | lineComment (within : '\n' ∉ body) (ends : after = [] ∨ ∃ rest, after = '\n' :: rest) :
      Trivium after ('/' :: '/' :: body)
  | blockComment (first : ¬ ['*', '/'] <:+: body) :
      Trivium after ('/' :: '*' :: (body ++ ['*', '/']))

/-- Spaces and comments one after another, in front of other text. -/
inductive Blank (after : List Char) : List Char → Prop where
  | nothing : Blank after []
  | cons (first : Trivium (gap ++ after) lexeme) (further : Blank after gap) :
      Blank after (lexeme ++ gap)

/-- The content of a piece says what its text is, and whether more can follow. Only the end of the
input is the end, and what is unterminated leaves nothing. -/
inductive Describes : Content → List Char → List Char → Prop where
  | blank (trivium : Trivium rest lexeme) : Describes .blank lexeme rest
  | token (other : kind ≠ .eof) : Describes (.token kind) lexeme rest
  | unexpected : Describes (.fault .unexpectedCharacter) [char] rest
  | unterminated (other : fault ≠ .unexpectedCharacter) : Describes (.fault fault) lexeme []

theorem Describes.ends {fault : Fault} {lexeme rest : List Char}
    (described : Describes (.fault fault) lexeme rest) (other : fault ≠ .unexpectedCharacter) :
    rest = [] := by
  cases described with
  | unexpected => exact absurd rfl other
  | unterminated => rfl

/-- What a cut from the front of a text is. -/
structure FrontOf (text : List Char) (cut : Cut) : Prop where
  split : text = cut.lexeme ++ cut.rest
  filled : cut.lexeme ≠ []
  described : Describes cut.content cut.lexeme cut.rest

namespace Cut

theorem closeComment?_split {passed text lexeme rest : List Char}
    (closed : closeComment? passed text = some (lexeme, rest)) : ∃ body,
      text = body ++ '*' :: '/' :: rest ∧ lexeme = passed.reverse ++ body ++ ['*', '/'] ∧
        ¬ ['*', '/'] <:+: body := by
  induction text generalizing passed with
  | nil => simp [closeComment?] at closed
  | cons char text ih =>
    unfold closeComment? at closed
    split at closed
    next after same =>
      obtain ⟨rfl, rfl⟩ := Prod.mk.inj (Option.some.inj closed)
      exact ⟨[], same, by simp, by simp⟩
    next head tail open' same =>
      cases same
      obtain ⟨body, rfl, rfl, first⟩ := ih closed
      refine ⟨char :: body, rfl, by simp, fun inside => ?_⟩
      rcases List.infix_cons_iff.mp inside with start | later
      · cases body with
        | nil => simp at start
        | cons second body =>
          obtain ⟨rfl, rfl⟩ : '*' = char ∧ '/' = second := by simpa using start
          exact open' (body ++ '*' :: '/' :: rest) rfl rfl
      · exact first later
    next => cases closed

private theorem dropWhile_newline (text : List Char) :
    text.dropWhile (· != '\n') = [] ∨ ∃ rest, text.dropWhile (· != '\n') = '\n' :: rest := by
  cases left : text.dropWhile (· != '\n') with
  | nil => exact .inl rfl
  | cons char rest =>
    have stopped := List.head?_dropWhile_not (· != '\n') text
    rw [left] at stopped
    obtain rfl : char = '\n' := by simpa using stopped
    exact .inr ⟨rest, rfl⟩

theorem lineComment_from (text : List Char) :
    FrontOf ('/' :: '/' :: text) (lineComment text) where
  split := by simp [lineComment, List.takeWhile_append_dropWhile]
  filled := by simp [lineComment]
  described := by
    refine .blank (.lineComment (fun inside => ?_) (dropWhile_newline text))
    simpa using List.all_eq_true.mp List.all_takeWhile _ inside

theorem comment_from (text : List Char) : FrontOf ('/' :: '*' :: text) (comment text) := by
  unfold comment
  split
  next lexeme after closed =>
    obtain ⟨body, rfl, rfl, first⟩ := closeComment?_split closed
    exact ⟨by simp, by simp, .blank (by simpa using Trivium.blockComment first)⟩
  next => exact ⟨by simp, by simp, .unterminated nofun⟩

theorem closing_quote {text after : List Char} {quote : Char}
    (left : text.dropWhile (· != '"') = quote :: after) : quote = '"' := by
  have stopped := List.head?_dropWhile_not (· != '"') text
  rw [left] at stopped
  simpa using stopped

theorem string_from (text : List Char) : FrontOf ('"' :: text) (string text) := by
  have whole : text = text.takeWhile (· != '"') ++ text.dropWhile (· != '"') :=
    List.takeWhile_append_dropWhile.symm
  unfold string
  split
  next quote after left =>
    refine ⟨?_, by simp, .token nofun⟩
    rw [left] at whole
    simpa using whole
  next left =>
    refine ⟨?_, by simp, .unterminated nofun⟩
    rw [left] at whole
    simpa using whole

theorem fraction_digits (after : List Char) : ∀ char ∈ fraction after, char.isDigit = true := by
  unfold fraction
  split
  · exact List.all_eq_true.mp List.all_takeWhile
  · nofun

/-- Where there are digits after a point, they are the front of what follows it. -/
theorem fraction_split {after : List Char} (some : (fraction after).isEmpty = false) :
    after = '.' :: fraction after ++ after.drop ((fraction after).length + 1) := by
  unfold fraction at some ⊢
  split
  next rest =>
    have digits : rest.take (rest.takeWhile Char.isDigit).length = rest.takeWhile Char.isDigit :=
      List.prefix_iff_eq_take.mp (List.takeWhile_prefix _) |>.symm
    have whole := List.take_append_drop (rest.takeWhile Char.isDigit).length rest
    rw [digits] at whole
    simpa using whole.symm
  next => simp at some

theorem number_from {first : Char} (digit : first.isDigit = true) (text : List Char) :
    FrontOf (first :: text) (number (first :: text)) := by
  have whole : first :: text = (first :: text).takeWhile Char.isDigit ++
      (first :: text).dropWhile Char.isDigit := List.takeWhile_append_dropWhile.symm
  have filled : (first :: text).takeWhile Char.isDigit ≠ [] := by simp [digit]
  unfold number
  cases places : (fraction ((first :: text).dropWhile Char.isDigit)).isEmpty with
  | true =>
    simp only [places, if_true]
    exact ⟨whole, filled, .token nofun⟩
  | false =>
    refine ⟨?_, by simp [places], .token nofun⟩
    simp only [places, Bool.false_eq_true, if_false, List.append_assoc]
    rw [← fraction_split places]
    exact whole

theorem word_from {first : Char} (part : isWordPart first = true) (text : List Char) :
    FrontOf (first :: text) (word (first :: text)) where
  split := List.takeWhile_append_dropWhile.symm
  filled := by simp [word, part]
  described := .token fun same => by split at same <;> cases same

theorem symbol_from (first : Char) (sign : Symbol) (text : List Char) :
    FrontOf (first :: text) (symbol first sign text) := by
  unfold symbol
  split
  · exact ⟨rfl, by simp, .token nofun⟩
  · exact ⟨rfl, by simp, .token nofun⟩

theorem isWordPart_of_start {char : Char} (starts : isWordStart char = true) :
    isWordPart char = true := by
  simp only [isWordStart, Bool.or_eq_true] at starts
  rcases starts with letter | score
  · simp [isWordPart, Char.isAlphanum, letter]
  · simp [isWordPart, score]

theorem not_start_of_digit {char : Char} (digit : char.isDigit = true) :
    ¬ isWordStart char = true := by
  simp only [isWordStart, Bool.or_eq_true, beq_iff_eq]
  rintro (letter | rfl)
  · unfold Char.isDigit at digit
    unfold Char.isAlpha Char.isUpper Char.isLower at letter
    simp only [Bool.and_eq_true, Bool.or_eq_true, decide_eq_true_eq,
      UInt32.le_iff_toNat_le] at digit letter
    simp at digit letter
    omega
  · contradiction

theorem ofText_digit {first : Char} (digit : first.isDigit = true) (rest : List Char) :
    ofText first rest = number (first :: rest) := by
  have blank : ¬ isBlank first = true := by
    simp only [isBlank, Bool.or_eq_true, beq_iff_eq]
    rintro ((((rfl | rfl) | rfl) | rfl) | rfl) <;> contradiction
  unfold ofText
  rw [if_neg blank, if_neg (not_start_of_digit digit), if_pos digit]

theorem ofText_from (first : Char) (text : List Char) :
    FrontOf (first :: text) (ofText first text) := by
  unfold ofText
  split
  next blank => exact ⟨rfl, by simp, .blank (.space (by simpa [isBlank, or_assoc] using blank))⟩
  next =>
    split
    next starts => exact word_from (isWordPart_of_start starts) text
    next =>
      split
      next digit => exact number_from digit text
      next =>
        split
        · exact string_from _
        · exact lineComment_from _
        · exact comment_from _
        · split
          · exact symbol_from first _ text
          · exact ⟨rfl, by simp, .unexpected⟩

end Cut

namespace Piece

theorem width_append (first second : List Char) : width (first ++ second) = width first + width second := by
  have shifted : ∀ (text : List Char) (total : Nat),
      text.foldl (fun total char => total + char.utf8Size) total = total + width text := by
    intro text
    induction text with
    | nil => simp [width]
    | cons char text ih =>
      intro total
      have head : width (char :: text) = 0 + char.utf8Size + width text := ih _
      rw [List.foldl_cons, ih, head]
      omega
  rw [width, List.foldl_append, shifted second]
  rfl

theorem newlines_append (first second : List Char) :
    newlines (first ++ second) = newlines first + newlines second := List.count_append

theorem width_pos {text : List Char} (filled : text ≠ []) : 0 < width text := by
  obtain ⟨char, rest, rfl⟩ := List.exists_cons_of_ne_nil filled
  have size : width [char] = char.utf8Size := Nat.zero_add _
  have positive := char.utf8Size_pos
  rw [← List.singleton_append, width_append]
  omega

/-- Characters take at least a byte, so there are no more lines than bytes. -/
theorem newlines_le_width (text : List Char) : newlines text ≤ width text := by
  induction text with
  | nil => simp [newlines]
  | cons char text ih =>
    have positive := width_pos (List.cons_ne_nil char [])
    have single : newlines [char] ≤ 1 := List.count_le_length
    rw [← List.singleton_append, width_append, newlines_append]
    omega

/-- The pieces of the text that is left, once some has been passed. -/
inductive Tiles : List Char → List Char → List Piece → Prop where
  | nil : Tiles passed [] []
  | cons (filled : piece.lexeme ≠ []) (described : Describes piece.content piece.lexeme rest)
      (line : piece.line = 1 + newlines (passed ++ piece.lexeme))
      (span : piece.span = ⟨width passed, width (passed ++ piece.lexeme)⟩)
      (further : Tiles (passed ++ piece.lexeme) rest pieces) :
      Tiles passed (piece.lexeme ++ rest) (piece :: pieces)

theorem collect_tiles (before : Array Piece) (passed text : List Char) : ∃ pieces,
    collect before (width passed) (1 + newlines passed) text = before ++ pieces.toArray ∧
      Tiles passed text pieces := by
  generalize size : text.length = length
  induction length using Nat.strongRecOn generalizing before passed text with
  | ind length ih =>
    cases text with
    | nil => exact ⟨[], by simp [collect], .nil⟩
    | cons first text =>
      obtain ⟨split, filled, described⟩ := Cut.ofText_from first text
      have shorter : (Cut.ofText first text).rest.length < length := by
        rw [← size, List.length_cons]
        exact Nat.lt_succ_of_le (Cut.ofText_rest_length first text)
      rw [collect]
      generalize Cut.ofText first text = cut at *
      obtain ⟨content, lexeme, rest⟩ := cut
      simp only at *
      rw [Nat.add_assoc, ← newlines_append, ← width_append]
      obtain ⟨pieces, same, tiles⟩ := ih _ shorter (before.push
        ⟨content, lexeme, 1 + newlines (passed ++ lexeme),
          ⟨width passed, width (passed ++ lexeme)⟩⟩) (passed ++ lexeme) rest rfl
      let piece : Piece :=
        ⟨content, lexeme, 1 + newlines (passed ++ lexeme), ⟨width passed, width (passed ++ lexeme)⟩⟩
      have tiled : Tiles passed (piece.lexeme ++ rest) (piece :: pieces) :=
        .cons filled described rfl rfl tiles
      rw [split]
      exact ⟨piece :: pieces, by simpa using same, tiled⟩

theorem ofSource_tiles (text : List Char) : Tiles [] text (ofSource text) := by
  obtain ⟨pieces, same, tiles⟩ := collect_tiles #[] [] text
  have collected : ofSource text = pieces := by
    rw [ofSource]
    simpa [width, newlines] using congrArg Array.toList same
  rw [collected]
  exact tiles

end Piece
end Lox
