import Lox.Proofs.SourceLayout
import Lox.Proofs.ParserSteps

/-! Two sources with a line break between them. A piece of the first that has its end is the same
with the second behind it, and the second only moves: its pieces are what they were by themselves. -/

namespace Lox

namespace Cut

/-- The same piece, cut from a longer text. -/
def followedBy (cut : Cut) (tail : List Char) : Cut := { cut with rest := cut.rest ++ tail }

/-- The piece does not lack its end. -/
def Complete (cut : Cut) : Prop :=
  ∀ fault, cut.content = .fault fault → fault = .unexpectedCharacter

theorem takeWhile_stop {test : Char → Bool} {stop : Char} (fails : test stop = false)
    (text tail : List Char) : (text ++ stop :: tail).takeWhile test = text.takeWhile test := by
  induction text with
  | nil => simp [fails]
  | cons char text ih => simp [List.takeWhile_cons, ih]

theorem dropWhile_stop {test : Char → Bool} {stop : Char} (fails : test stop = false)
    (text tail : List Char) :
    (text ++ stop :: tail).dropWhile test = text.dropWhile test ++ stop :: tail := by
  induction text with
  | nil => simp [fails]
  | cons char text ih =>
    cases holds : test char <;> simp [holds, ih]

/-- Where a search in a text comes to an end, more text does not matter. -/
theorem takeWhile_found {test : Char → Bool} {text rest : List Char} {stop : Char}
    (found : text.dropWhile test = stop :: rest) (tail : List Char) :
    (text ++ tail).takeWhile test = text.takeWhile test ∧
      (text ++ tail).dropWhile test = stop :: (rest ++ tail) := by
  induction text with
  | nil => cases found
  | cons char text ih =>
    cases holds : test char with
    | true =>
      have further := ih (by simpa [holds] using found)
      simpa [holds] using further
    | false =>
      obtain ⟨rfl, rfl⟩ : char = stop ∧ text = rest := by simpa [holds] using found
      simp [holds]

theorem closeComment?_append {passed text lexeme rest : List Char}
    (closed : closeComment? passed text = some (lexeme, rest)) (tail : List Char) :
    closeComment? passed (text ++ tail) = some (lexeme, rest ++ tail) := by
  induction text generalizing passed with
  | nil => simp [closeComment?] at closed
  | cons char text ih =>
    unfold closeComment? at closed
    split at closed
    next after same =>
      obtain ⟨rfl, rfl⟩ := Prod.mk.inj (Option.some.inj closed)
      obtain ⟨rfl, rfl⟩ := List.cons.inj same
      rfl
    next head rest other same =>
      obtain ⟨rfl, rfl⟩ := List.cons.inj same
      have further := ih closed
      rw [List.cons_append]
      -- What the comment goes on with does not close it, and neither does its last character.
      cases text with
      | nil => simp [closeComment?] at closed
      | cons second text =>
        rw [closeComment?.eq_2 _ _ _ (by simpa using other)]
        exact further
    next => cases closed

variable (tail : List Char)

theorem comment_newline {text : List Char} (complete : (comment text).Complete) :
    comment (text ++ tail) = (comment text).followedBy tail := by
  unfold comment at complete ⊢
  cases closed : closeComment? ['*', '/'] text with
  | none =>
    rw [closed] at complete
    exact absurd (complete _ rfl) (by simp)
  | some parts =>
    obtain ⟨lexeme, rest⟩ := parts
    rw [closeComment?_append closed]
    rfl

theorem string_newline {text : List Char} (complete : (string text).Complete) :
    string (text ++ tail) = (string text).followedBy tail := by
  cases left : text.dropWhile (· != '"') with
  | nil =>
    have lacking : (string text).content = .fault .unterminatedString := by simp only [string, left]
    exact absurd (complete _ lacking) (by simp)
  | cons quote after =>
    obtain ⟨same, further⟩ := takeWhile_found left tail
    simp only [string, left, same, further, followedBy]

theorem lineComment_newline (text : List Char) :
    lineComment (text ++ '\n' :: tail) = (lineComment text).followedBy ('\n' :: tail) := by
  simp [lineComment, followedBy, takeWhile_stop, dropWhile_stop]

theorem fraction_newline (after : List Char) : fraction (after ++ '\n' :: tail) = fraction after := by
  unfold fraction
  split
  next rest same =>
    cases after with
    | nil => simp at same
    | cons char after =>
      obtain ⟨rfl, rfl⟩ := List.cons.inj same
      exact takeWhile_stop (by decide) after tail
  next other =>
    split
    next rest => exact absurd rfl (other (rest ++ '\n' :: tail))
    next => rfl

theorem number_newline (text : List Char) :
    number (text ++ '\n' :: tail) = (number text).followedBy ('\n' :: tail) := by
  have stops : Char.isDigit '\n' = false := by decide
  simp only [number, takeWhile_stop stops, dropWhile_stop stops, fraction_newline]
  cases places : (fraction (text.dropWhile Char.isDigit)).isEmpty with
  | true => simp [followedBy]
  | false =>
    have enough : (fraction (text.dropWhile Char.isDigit)).length + 1 ≤
        (text.dropWhile Char.isDigit).length := by
      have whole := congrArg List.length (fraction_split places)
      simp only [List.cons_append, List.length_cons, List.length_append] at whole
      omega
    simp [followedBy, List.drop_append_of_le_length enough]

theorem word_newline (text : List Char) :
    word (text ++ '\n' :: tail) = (word text).followedBy ('\n' :: tail) := by
  have stops : isWordPart '\n' = false := by decide
  simp only [word, takeWhile_stop stops, dropWhile_stop stops, followedBy]

theorem symbol_newline (first : Char) (sign : Symbol) (text : List Char) :
    symbol first sign (text ++ '\n' :: tail) = (symbol first sign text).followedBy ('\n' :: tail) := by
  unfold symbol
  cases sign.withEqual? with
  | none => rfl
  | some double =>
    cases text with
    | nil => rfl
    | cons char text =>
      by_cases same : char = '='
      · subst same
        rfl
      · simp [same, followedBy]

/-- A line break behind a text changes none of its pieces that have their end. -/
theorem ofText_newline (first : Char) (text : List Char) (complete : (ofText first text).Complete) :
    ofText first (text ++ '\n' :: tail) = (ofText first text).followedBy ('\n' :: tail) := by
  unfold ofText at complete ⊢
  split
  next => rfl
  next notBlank =>
    rw [if_neg notBlank] at complete
    split
    next => exact word_newline tail (first :: text)
    next notWord =>
      rw [if_neg notWord] at complete
      split
      next => exact number_newline tail (first :: text)
      next notDigit =>
        rw [if_neg notDigit] at complete
        split at complete
        next => exact string_newline ('\n' :: tail) complete
        next => exact lineComment_newline tail _
        next => exact comment_newline ('\n' :: tail) complete
        next quoted lined blocked =>
          -- With the line break behind it the text begins no comment either.
          have begins (second : Char) (after : List Char)
              (same : text ++ '\n' :: tail = second :: after) :
              second = '\n' ∨ ∃ rest, text = second :: rest := by
            cases text with
            | nil => exact .inl (List.cons.inj same).1.symm
            | cons char rest => exact .inr ⟨rest, by rw [(List.cons.inj same).1]⟩
          split
          next => exact absurd rfl quoted
          next after same =>
            rcases begins '/' after same with newline | ⟨rest, rfl⟩
            · exact absurd newline (by decide)
            · exact absurd rfl (lined rest rfl)
          next after same =>
            rcases begins '*' after same with newline | ⟨rest, rfl⟩
            · exact absurd newline (by decide)
            · exact absurd rfl (blocked rest rfl)
          next =>
            split
            next sign found => exact symbol_newline tail _ sign text
            next => rfl

end Cut

def Span.moved (bytes : Nat) (span : Span) : Span := ⟨span.start + bytes, span.stop + bytes⟩

/-- The same token further down in a source. -/
def Token.moved (bytes lines : Nat) (token : Token) : Token :=
  { token with line := token.line + lines, span := token.span.moved bytes }

/-- The same error further down in a source. -/
def LexError.moved (bytes lines : Nat) (error : LexError) : LexError :=
  { error with line := error.line + lines, span := error.span.moved bytes }

namespace Piece

/-- The pieces behind others do not depend on these. -/
theorem collect_append (before : Array Piece) (offset line : Nat) (text : List Char) :
    collect before offset line text = before ++ collect #[] offset line text := by
  generalize size : text.length = length
  induction length using Nat.strongRecOn generalizing before offset line text with
  | ind length ih =>
    cases text with
    | nil => simp [collect]
    | cons first text =>
      have shorter : (Cut.ofText first text).rest.length < length := by
        rw [← size, List.length_cons]
        exact Nat.lt_succ_of_le (Cut.ofText_rest_length first text)
      rw [collect, collect]
      rw [ih _ shorter (before.push _) _ _ _ rfl, ih _ shorter (#[].push _) _ _ _ rfl]
      simp

/-- Pieces none of which lacks its end. -/
def Complete (pieces : Array Piece) : Prop :=
  ∀ piece ∈ pieces, ∀ fault, piece.content = .fault fault → fault = .unexpectedCharacter

/-- The line break between two texts is a piece of its own. -/
def lineBreak (offset line : Nat) : Piece := ⟨.blank, ['\n'], line + 1, ⟨offset, offset + 1⟩⟩

theorem collect_newline {offset line : Nat} {text : List Char} (tail : List Char)
    (complete : Complete (collect #[] offset line text)) :
    collect #[] offset line (text ++ '\n' :: tail) =
      (collect #[] offset line text).push (lineBreak (offset + width text) (line + newlines text)) ++
        collect #[] (offset + width text + 1) (line + newlines text + 1) tail := by
  generalize size : text.length = length
  induction length using Nat.strongRecOn generalizing offset line text with
  | ind length ih =>
    cases text with
    | nil =>
      have size : '\n'.utf8Size = 1 := by decide
      rw [List.nil_append, collect.eq_2, collect_append (#[].push _)]
      simp [Cut.ofText, Cut.isBlank, collect, lineBreak, width, newlines, size]
    | cons first text =>
      have shorter : (Cut.ofText first text).rest.length < length := by
        rw [← size, List.length_cons]
        exact Nat.lt_succ_of_le (Cut.ofText_rest_length first text)
      rw [collect, collect_append] at complete
      have own : (Cut.ofText first text).Complete :=
        fun fault same => complete _ (Array.mem_append_left _ (Array.mem_singleton.mpr rfl)) fault same
      have further : Complete _ := fun piece member => complete piece (Array.mem_append_right _ member)
      have whole := (Cut.ofText_from first text).split
      rw [List.cons_append, collect, Cut.ofText_newline tail first text own]
      rw [collect.eq_2 _ _ _ first text]
      simp only [Cut.followedBy]
      rw [collect_append (#[].push _), ih _ shorter further rfl, collect_append (#[].push _)]
      rw [whole, width_append, newlines_append]
      simp [Nat.add_assoc]

/-- The same piece further down in a source. -/
def moved (bytes lines : Nat) (piece : Piece) : Piece :=
  { piece with line := piece.line + lines, span := piece.span.moved bytes }

/-- Where a text stands matters only for where its pieces stand. -/
theorem collect_moved (offset line bytes lines : Nat) (text : List Char) :
    collect #[] (offset + bytes) (line + lines) text =
      (collect #[] offset line text).map (moved bytes lines) := by
  generalize size : text.length = length
  induction length using Nat.strongRecOn generalizing offset line text with
  | ind length ih =>
    cases text with
    | nil => simp [collect]
    | cons first text =>
      have shorter : (Cut.ofText first text).rest.length < length := by
        rw [← size, List.length_cons]
        exact Nat.lt_succ_of_le (Cut.ofText_rest_length first text)
      have further (behind : Nat) : offset + bytes + behind = offset + behind + bytes :=
        Nat.add_right_comm ..
      have below (behind : Nat) : line + lines + behind = line + behind + lines :=
        Nat.add_right_comm ..
      rw [collect, collect, collect_append (#[].push _), collect_append (#[].push _), further, below,
        ih _ shorter _ _ _ rfl, Array.map_append, Array.map_push, Array.map_empty]
      rfl

/-- The pieces of two texts with a line break between them. -/
theorem ofSource_newline {text : List Char} (complete : Complete (collect #[] 0 1 text))
    (tail : List Char) : ∃ lineBreak, lineBreak.content = .blank ∧
      ofSource (text ++ '\n' :: tail) = ofSource text ++
        lineBreak :: (ofSource tail).map (moved (width text + 1) (newlines text + 1)) := by
  have split := collect_newline tail complete
  have further : 0 + width text + 1 = 0 + (width text + 1) := Nat.add_assoc ..
  have below : 1 + newlines text + 1 = 1 + (newlines text + 1) := Nat.add_assoc ..
  rw [further, below, collect_moved] at split
  refine ⟨lineBreak (0 + width text) (1 + newlines text), rfl, ?_⟩
  simp [ofSource, split]

theorem token?_moved (bytes lines : Nat) (piece : Piece) :
    (piece.moved bytes lines).token? = piece.token?.map (Token.moved bytes lines) := by
  obtain ⟨content, lexeme, line, span⟩ := piece
  cases content <;> rfl

theorem error?_moved (bytes lines : Nat) (piece : Piece) :
    (piece.moved bytes lines).error? = piece.error?.map (LexError.moved bytes lines) := by
  obtain ⟨content, lexeme, line, span⟩ := piece
  cases content <;> rfl

theorem complete_of_ended {text : List Char}
    (ended : ∀ error ∈ (ofSource text).filterMap error?, error.fault = .unexpectedCharacter) :
    Complete (collect #[] 0 1 text) := by
  intro piece member fault faulty
  refine ended ⟨fault, String.ofList piece.lexeme, piece.line, piece.span⟩ ?_
  exact List.mem_filterMap.mpr ⟨piece, Array.mem_toList_iff.mpr member, by simp [error?, faulty]⟩

end Piece

namespace Scan

/-- The tokens that the text of a source consists of, without the end of the input. -/
def own (source : String) : List Token := (Piece.ofSource source.toList).filterMap Piece.token?

theorem tokens_eq (source : String) : ∃ line offset,
    (ofSource source).tokens = own source ++ [Token.endOfInput line offset] := ⟨_, _, rfl⟩

theorem own_ne_eof (source : String) : .eof ∉ (own source).map Token.kind := by
  intro member
  obtain ⟨token, inside, last⟩ := List.mem_map.mp member
  obtain ⟨piece, among, same⟩ := List.mem_filterMap.mp inside
  obtain ⟨_, _, _, _, described, _⟩ := (Piece.ofSource_tiles source.toList).part piece among
  rw [(Piece.token?_eq_some.mp same).1] at described
  cases described with
  | token other => exact other last

theorem tokens_closed (source : String) : Closed ((ofSource source).tokens.map Token.kind) := by
  obtain ⟨line, offset, same⟩ := tokens_eq source
  rw [same, List.map_append]
  exact closed_append_eof (own_ne_eof source)

/-- What a source with a line break in it is read to, if no string and no comment of what is before
the line break lacks its end. -/
private theorem parts_newline {first : String}
    (ended : ∀ error ∈ (ofSource first).errors, error.fault = .unexpectedCharacter)
    (second : String) :
    let bytes := Piece.width first.toList + 1
    let lines := Piece.newlines first.toList + 1
    own (first ++ "\n" ++ second) = own first ++ (own second).map (Token.moved bytes lines) ∧
      (ofSource (first ++ "\n" ++ second)).errors =
        (ofSource first).errors ++ (ofSource second).errors.map (LexError.moved bytes lines) := by
  intro bytes lines
  obtain ⟨lineBreak, blank, pieces⟩ :=
    Piece.ofSource_newline (Piece.complete_of_ended ended) second.toList
  have text : (first ++ "\n" ++ second).toList = first.toList ++ '\n' :: second.toList := by simp
  have errors (source : String) :
      (ofSource source).errors = (Piece.ofSource source.toList).filterMap Piece.error? := rfl
  constructor
  · rw [own, text, pieces, List.filterMap_append,
      List.filterMap_cons_none (by simp [Piece.token?, blank]), List.filterMap_map]
    simp only [Function.comp_def, Piece.token?_moved]
    rw [own, own, List.map_filterMap]
  · rw [errors, text, pieces, List.filterMap_append,
      List.filterMap_cons_none (by simp [Piece.error?, blank]), List.filterMap_map]
    simp only [Function.comp_def, Piece.error?_moved]
    rw [errors, errors, List.map_filterMap]

/-- Two sources with a line break between them. If the first has no faults, its tokens come first,
and then those of the second, further down. -/
theorem ofSource_newline {first : String} (clean : (ofSource first).errors = []) (second : String) :
    (∃ moved, own (first ++ "\n" ++ second) = own first ++ moved ∧
      moved.map Token.kind = (own second).map Token.kind) ∧
    (ofSource (first ++ "\n" ++ second)).errors.map LexError.fault =
      (ofSource second).errors.map LexError.fault := by
  have ended : ∀ error ∈ (ofSource first).errors, error.fault = .unexpectedCharacter := by
    simp [clean]
  obtain ⟨tokens, errors⟩ := parts_newline ended second
  refine ⟨⟨_, tokens, ?_⟩, ?_⟩
  · rw [List.map_map]
    rfl
  · rw [errors, clean, List.nil_append, List.map_map]
    rfl

/-- Reading goes line by line where nothing goes on behind the end of a line. The tokens and errors of
what is before the line break come first, the end of the input apart, then those of what is behind
it, further down by all that is before. -/
theorem joins_at_line_end {first : String}
    (ended : ∀ error ∈ (ofSource first).errors, error.fault = .unexpectedCharacter)
    (second : String) :
    let bytes := first.utf8ByteSize + 1
    let lines := 1 + first.toList.count '\n'
    (ofSource (first ++ "\n" ++ second)).tokens =
        (ofSource first).tokens.dropLast ++ (ofSource second).tokens.map (Token.moved bytes lines) ∧
      (ofSource (first ++ "\n" ++ second)).errors =
        (ofSource first).errors ++ (ofSource second).errors.map (LexError.moved bytes lines) := by
  intro bytes lines
  have size : Piece.width first.toList + 1 = bytes := by
    rw [← Piece.size_ofList, String.ofList_toList]
  have below : Piece.newlines first.toList + 1 = lines := Nat.add_comm ..
  obtain ⟨tokens, errors⟩ := parts_newline ended second
  rw [size, below] at tokens errors
  refine ⟨?_, errors⟩
  have scanned (source : String) : (ofSource source).tokens = own source ++
    [Token.endOfInput (1 + Piece.newlines source.toList) (Piece.width source.toList)] := rfl
  rw [scanned, scanned first, scanned second, tokens, List.dropLast_concat, List.map_append,
    List.append_assoc]
  refine congrArg (fun last => own first ++ (_ ++ [last])) ?_
  have text : (first ++ "\n" ++ second).toList = first.toList ++ (['\n'] ++ second.toList) := by simp
  have one : Piece.width ['\n'] = 1 := by decide
  have single : Piece.newlines ['\n'] = 1 := by decide
  have lineOf : 1 + Piece.newlines (first.toList ++ (['\n'] ++ second.toList)) =
      1 + Piece.newlines second.toList + lines := by
    rw [Piece.newlines_append, Piece.newlines_append, single]
    omega
  have end' : Piece.width (first.toList ++ (['\n'] ++ second.toList)) =
      Piece.width second.toList + bytes := by
    rw [Piece.width_append, Piece.width_append, one]
    omega
  rw [text, lineOf, end']
  rfl

/-- A stray character and a comment in front of the line break, a string over two lines behind it. -/
theorem joins_at_line_end_string :
    let first := "@ 1. // a"
    let second := "5\"\n\""
    (∀ error ∈ (ofSource first).errors, error.fault = .unexpectedCharacter) ∧
      (ofSource (first ++ "\n" ++ second)).tokens.map
          (fun token => (token.lexeme, token.line, token.span)) =
        [("1", 1, ⟨2, 3⟩), (".", 1, ⟨3, 4⟩), ("5", 2, ⟨10, 11⟩), ("\"\n\"", 3, ⟨11, 14⟩),
          ("", 3, ⟨14, 14⟩)] ∧
      (ofSource (first ++ "\n" ++ second)).errors = [⟨.unexpectedCharacter, "@", 1, ⟨0, 1⟩⟩] := by
  intro first second
  have ended : ∀ error ∈ (ofSource first).errors, error.fault = .unexpectedCharacter := by
    decide +kernel
  obtain ⟨tokens, errors⟩ := joins_at_line_end ended second
  refine ⟨ended, ?_, ?_⟩
  · rw [tokens]
    decide +kernel
  · rw [errors]
    decide +kernel

end Scan
end Lox
