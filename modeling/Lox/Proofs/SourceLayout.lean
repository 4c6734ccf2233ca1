import Lox.Proofs.SourcePieces

/-! Reading loses no text. What tokens and errors cover lies in the source in their order and apart,
and whatever lies between is blank. -/

namespace Lox

/-- What a token or an error covers, and the line it is on. -/
structure Mark where
  lexeme : String
  line : Nat
  span : Span

def Token.mark (token : Token) : Mark := ⟨token.lexeme, token.line, token.span⟩

def LexError.mark (error : LexError) : Mark := ⟨error.lexeme, error.line, error.span⟩

namespace Mark

def Before (first second : Mark) : Prop := first.span.stop ≤ second.span.start

/-- The text of a mark is the part of the source that its span covers, and it sits on the line that
this part ends on. Neither of its numbers is greater than an offset may be. -/
structure Covers (source : String) (mark : Mark) : Prop where
  part : ∃ before after, source = before ++ mark.lexeme ++ after ∧
    mark.span = ⟨before.utf8ByteSize, (before ++ mark.lexeme).utf8ByteSize⟩ ∧
      mark.line = 1 + (before ++ mark.lexeme).toList.count '\n'
  filled : mark.span.start < mark.span.stop
  stopFits : mark.span.stop ≤ Span.maxOffset
  lineFits : mark.line ≤ Span.maxOffset

/-- The text that is left, once some has been passed, is the text of the marks at their places, with
blanks before, between and after them. -/
inductive Fills : String → String → List Mark → Prop where
  | done (blank : Blank [] gap.toList) : Fills passed gap []
  | mark (blank : Blank (mark.lexeme ++ rest).toList gap.toList)
      (start : mark.span.start = (passed ++ gap).utf8ByteSize)
      (stop : mark.span.stop = (passed ++ gap ++ mark.lexeme).utf8ByteSize)
      (further : Fills (passed ++ gap ++ mark.lexeme) rest marks) :
      Fills passed (gap ++ mark.lexeme ++ rest) (mark :: marks)

private theorem blank_append {after gap lexeme : String}
    (first : Trivium (gap ++ after).toList lexeme.toList) (further : Blank after.toList gap.toList) :
    Blank after.toList (lexeme ++ gap).toList := by
  rw [String.toList_append] at first ⊢
  exact .cons first further

/-- Text without meaning in front of the rest is part of the first gap. -/
theorem Fills.widen {passed lexeme text : String} {marks : List Mark}
    (fills : Fills (passed ++ lexeme) text marks) (trivium : Trivium text.toList lexeme.toList) :
    Fills passed (lexeme ++ text) marks := by
  cases fills with
  | done blank =>
    have trivium : Trivium (text ++ "").toList lexeme.toList := by simpa using trivium
    exact .done (blank_append trivium blank)
  | mark blank start stop further =>
    have regroup (gap : String) : passed ++ lexeme ++ gap = passed ++ (lexeme ++ gap) :=
      String.append_assoc
    rw [regroup] at start stop further
    rw [String.append_assoc] at trivium
    rw [← String.append_assoc, ← String.append_assoc]
    exact .mark (blank_append trivium blank) start stop further

end Mark

/-- All marks of tokens and errors, in the order they start in. -/
def merged (tokens : List Token) (errors : List LexError) : List Mark :=
  (tokens.map Token.mark).merge (errors.map LexError.mark)
    fun first second => first.span.start ≤ second.span.start

/-- Tokens, without the end of the input, and errors account for a whole source. -/
structure AccountFor (source : String) (tokens : List Token) (errors : List LexError) : Prop where
  tokensCover : ∀ token ∈ tokens, token.mark.Covers source
  errorsCover : ∀ error ∈ errors, error.mark.Covers source
  tokensInOrder : tokens.Pairwise fun first second => first.mark.Before second.mark
  errorsInOrder : errors.Pairwise fun first second => first.mark.Before second.mark
  apart : (merged tokens errors).Pairwise Mark.Before
  fill : Mark.Fills "" source (merged tokens errors)
  unexpected : ∀ error ∈ errors, error.fault = .unexpectedCharacter → error.lexeme.length = 1
  unterminated : ∀ error ∈ errors, error.fault ≠ .unexpectedCharacter →
    error.span.stop = source.utf8ByteSize ∧ (∀ token ∈ tokens, token.mark.Before error.mark) ∧
      ∃ earlier, errors = earlier ++ [error] ∧
        ∀ other ∈ earlier, other.fault = .unexpectedCharacter

namespace Piece

theorem size_ofList (text : List Char) : (String.ofList text).utf8ByteSize = width text := by
  induction text with
  | nil => rfl
  | cons char text ih =>
    rw [← List.singleton_append, String.ofList_append, String.utf8ByteSize_append, width_append, ih,
      ← String.singleton_eq_ofList, String.utf8ByteSize_singleton]
    simp [width]

def mark (piece : Piece) : Mark := ⟨String.ofList piece.lexeme, piece.line, piece.span⟩

def mark? (piece : Piece) : Option Mark :=
  match piece.content with
  | .blank => none
  | .token _ | .fault _ => some piece.mark

theorem token?_eq_some {piece : Piece} {token : Token} :
    piece.token? = some token ↔ piece.content = .token token.kind ∧ token.mark = piece.mark := by
  obtain ⟨content, lexeme, line, span⟩ := piece
  obtain ⟨kind, text, line, span⟩ := token
  cases content <;> simp [token?, Token.mark, mark, eq_comm]

theorem error?_eq_some {piece : Piece} {error : LexError} :
    piece.error? = some error ↔ piece.content = .fault error.fault ∧ error.mark = piece.mark := by
  obtain ⟨content, lexeme, line, span⟩ := piece
  obtain ⟨fault, text, line, span⟩ := error
  cases content <;> simp [error?, LexError.mark, mark, eq_comm]

theorem mark?_eq_some {piece : Piece} {other : Mark} (some : piece.mark? = some other) :
    other = piece.mark := by
  cases content : piece.content <;> simp_all [mark?]

theorem mem_tokens {pieces : List Piece} {other : Mark}
    (member : other ∈ (pieces.filterMap token?).map Token.mark) :
    ∃ piece ∈ pieces, other = piece.mark := by
  obtain ⟨token, inside, rfl⟩ := List.mem_map.mp member
  obtain ⟨piece, among, same⟩ := List.mem_filterMap.mp inside
  exact ⟨piece, among, (token?_eq_some.mp same).2⟩

theorem mem_errors {pieces : List Piece} {other : Mark}
    (member : other ∈ (pieces.filterMap error?).map LexError.mark) :
    ∃ piece ∈ pieces, other = piece.mark := by
  obtain ⟨error, inside, rfl⟩ := List.mem_map.mp member
  obtain ⟨piece, among, same⟩ := List.mem_filterMap.mp inside
  exact ⟨piece, among, (error?_eq_some.mp same).2⟩

namespace Tiles

variable {passed text : List Char} {pieces : List Piece}

theorem nil_of_nil (tiles : Tiles passed [] pieces) : pieces = [] := by
  generalize empty : ([] : List Char) = text at tiles
  cases tiles with
  | nil => rfl
  | cons filled => simp [filled] at empty

theorem after (tiles : Tiles passed text pieces) :
    ∀ piece ∈ pieces, width passed ≤ piece.span.start := by
  induction tiles with
  | nil => simp
  | cons filled described line span further ih =>
    intro piece member
    rcases List.mem_cons.mp member with rfl | later
    · simp [span]
    · have start := ih piece later
      rw [width_append] at start
      omega

theorem inOrder (tiles : Tiles passed text pieces) :
    pieces.Pairwise fun first second => first.span.stop ≤ second.span.start := by
  induction tiles with
  | nil => exact .nil
  | cons filled described line span further ih =>
    refine .cons (fun piece later => ?_) ih
    rw [span]
    exact further.after piece later

/-- Every piece has its part of the text, with what was passed before it and what is left. -/
theorem part (tiles : Tiles passed text pieces) : ∀ piece ∈ pieces, ∃ before after,
    passed ++ text = before ++ piece.lexeme ++ after ∧ piece.lexeme ≠ [] ∧
      Describes piece.content piece.lexeme after ∧
        piece.line = 1 + newlines (before ++ piece.lexeme) ∧
          piece.span = ⟨width before, width (before ++ piece.lexeme)⟩ := by
  induction tiles with
  | nil => simp
  | cons filled described line span further ih =>
    intro piece member
    rcases List.mem_cons.mp member with rfl | later
    · exact ⟨_, _, (List.append_assoc ..).symm, filled, described, line, span⟩
    · obtain ⟨before, after, whole, rest⟩ := ih piece later
      exact ⟨before, after, by simpa using whole, rest⟩

theorem starts (tiles : Tiles passed text pieces) :
    pieces.Pairwise fun first second => first.span.start < second.span.start := by
  refine tiles.inOrder.imp_of_mem fun {first second} member _ ordered => ?_
  obtain ⟨before, _, _, filled, _, _, span⟩ := tiles.part first member
  have positive := width_pos filled
  simp only [span, width_append] at ordered ⊢
  omega

/-- A piece that lacks its end is the last one, and the only one. -/
theorem last (tiles : Tiles passed text pieces) {piece : Piece} (member : piece ∈ pieces)
    {fault : Fault} (faulty : piece.content = .fault fault) (other : fault ≠ .unexpectedCharacter) :
    piece.span.stop = width (passed ++ text) ∧ ∃ earlier, pieces = earlier ++ [piece] ∧
      ∀ before ∈ earlier, ∀ fault, before.content = .fault fault → fault = .unexpectedCharacter := by
  induction tiles with
  | nil => cases member
  | @cons rest passed pieces first filled described line span further ih =>
    have stops (fault : Fault) (same : first.content = .fault fault)
        (other : fault ≠ .unexpectedCharacter) : pieces = [] := by
      rw [same] at described
      cases described.ends other
      exact further.nil_of_nil
    rcases List.mem_cons.mp member with rfl | later
    · cases stops fault faulty other
      rw [faulty] at described
      cases described.ends other
      exact ⟨by simp [span], [], rfl, by simp⟩
    · obtain ⟨stop, earlier, rfl, expected⟩ := ih later
      refine ⟨by simpa using stop, first :: earlier, rfl, fun before among fault same => ?_⟩
      rcases List.mem_cons.mp among with rfl | among
      · refine Decidable.by_contra fun other => ?_
        have nothing := stops fault same other
        simp at nothing
      · exact expected before among fault same

theorem fills (tiles : Tiles passed text pieces) :
    Mark.Fills (String.ofList passed) (String.ofList text) (pieces.filterMap mark?) := by
  induction tiles with
  | nil => exact .done .nothing
  | @cons rest passed pieces piece filled described line span further ih =>
    rw [String.ofList_append] at ih ⊢
    -- A blank piece widens the gap that comes first, any other piece ends it.
    cases content : piece.content with
    | blank =>
      rw [content] at described
      cases described with
      | blank trivium =>
        rw [List.filterMap_cons_none (by simp [mark?, content])]
        exact ih.widen (by simpa using trivium)
    | token | fault =>
      have start : piece.mark.span.start = (String.ofList passed ++ "").utf8ByteSize := by
        simp [mark, span, size_ofList]
      have stop : piece.mark.span.stop =
          (String.ofList passed ++ "" ++ String.ofList piece.lexeme).utf8ByteSize := by
        rw [String.append_empty, ← String.ofList_append, size_ofList, mark, span]
      rw [List.filterMap_cons_some (show piece.mark? = some piece.mark by simp [mark?, content])]
      simpa [mark] using Mark.Fills.mark .nothing start stop (by simpa [mark] using ih)

end Tiles

private theorem merge_cons_left {α : Type} {le : α → α → Bool} {first : α} {left right : List α}
    (least : ∀ other ∈ right, le first other) :
    (first :: left).merge right le = first :: left.merge right le := by
  cases right with
  | nil => simp
  | cons other right => exact List.cons_merge_cons_pos _ _ _ (least other List.mem_cons_self)

private theorem merge_cons_right {α : Type} {le : α → α → Bool} {first : α} {left right : List α}
    (least : ∀ other ∈ left, ¬ le other first) :
    left.merge (first :: right) le = first :: left.merge right le := by
  cases left with
  | nil => simp
  | cons other left => exact List.cons_merge_cons_neg _ _ _ (least other List.mem_cons_self)

/-- Pieces in the order of their starts keep this order when tokens and errors are merged. -/
theorem merged_eq {pieces : List Piece}
    (ordered : pieces.Pairwise fun first second => first.span.start < second.span.start) :
    merged (pieces.filterMap token?) (pieces.filterMap error?) = pieces.filterMap mark? := by
  unfold merged
  induction pieces with
  | nil => simp
  | cons piece pieces ih =>
    obtain ⟨later, ordered⟩ := List.pairwise_cons.mp ordered
    have rest := ih ordered
    cases content : piece.content with
    | blank => simpa [token?, error?, mark?, content] using rest
    | token kind =>
      simp only [List.filterMap_cons, token?, error?, mark?, content, List.map_cons] at rest ⊢
      rw [merge_cons_left, rest]
      · rfl
      · intro other member
        obtain ⟨second, among, rfl⟩ := mem_errors member
        exact decide_eq_true (Nat.le_of_lt (later second among))
    | fault fault =>
      simp only [List.filterMap_cons, token?, error?, mark?, content, List.map_cons] at rest ⊢
      rw [merge_cons_right, rest]
      · rfl
      · intro other member
        obtain ⟨second, among, rfl⟩ := mem_tokens member
        exact mt of_decide_eq_true (Nat.not_le.mpr (later second among))

theorem Tiles.covers {source : String} {pieces : List Piece}
    (tiles : Tiles [] source.toList pieces) (short : source.utf8ByteSize < Span.maxOffset)
    {piece : Piece} (member : piece ∈ pieces) : piece.mark.Covers source := by
  obtain ⟨before, after, whole, filled, -, line, span⟩ := tiles.part piece member
  have split : source = String.ofList before ++ String.ofList piece.lexeme ++ String.ofList after := by
    rw [← String.ofList_append, ← String.ofList_append, ← whole]
    simp
  have inside : width (before ++ piece.lexeme) ≤ source.utf8ByteSize := by
    rw [split, ← String.ofList_append, String.utf8ByteSize_append, size_ofList]
    exact Nat.le_add_right _ _
  have lines := newlines_le_width (before ++ piece.lexeme)
  have positive := width_pos filled
  refine ⟨⟨String.ofList before, String.ofList after, split, ?_, ?_⟩, ?_, ?_, ?_⟩
  · simp only [mark, span, ← String.ofList_append, size_ofList]
  · simp only [mark, line, ← String.ofList_append, String.toList_ofList]
    rfl
  · simp only [mark, span, width_append]
    omega
  · simp only [mark, span]
    omega
  · simp only [mark, line]
    omega

theorem Tiles.unexpected {passed text : List Char} {pieces : List Piece}
    (tiles : Tiles passed text pieces) {error : LexError}
    (member : error ∈ pieces.filterMap error?) (fault : error.fault = .unexpectedCharacter) :
    error.lexeme.length = 1 := by
  obtain ⟨piece, among, same⟩ := List.mem_filterMap.mp member
  obtain ⟨content, marked⟩ := error?_eq_some.mp same
  obtain ⟨_, _, _, _, described, _⟩ := tiles.part piece among
  have lexeme : error.lexeme = String.ofList piece.lexeme := congrArg Mark.lexeme marked
  rw [content, fault] at described
  rw [lexeme, String.length_ofList]
  generalize piece.lexeme = text at described
  cases described with
  | unexpected => rfl
  | unterminated other => exact absurd rfl other

theorem Tiles.unterminated {source : String} {pieces : List Piece}
    (tiles : Tiles [] source.toList pieces) {error : LexError}
    (member : error ∈ pieces.filterMap error?) (fault : error.fault ≠ .unexpectedCharacter) :
    error.span.stop = source.utf8ByteSize ∧
      (∀ token ∈ pieces.filterMap token?, token.mark.Before error.mark) ∧
        ∃ earlier, pieces.filterMap error? = earlier ++ [error] ∧
          ∀ other ∈ earlier, other.fault = .unexpectedCharacter := by
  obtain ⟨piece, among, same⟩ := List.mem_filterMap.mp member
  obtain ⟨content, marked⟩ := error?_eq_some.mp same
  obtain ⟨stop, earlier, rfl, expected⟩ := tiles.last among content fault
  have span : error.span = piece.span := congrArg Mark.span marked
  refine ⟨?_, fun token inside => ?_, earlier.filterMap error?, by simp [same], ?_⟩
  · rw [span, stop, List.nil_append, ← size_ofList, String.ofList_toList]
  · obtain ⟨second, among, kind⟩ := List.mem_filterMap.mp inside
    obtain ⟨content', marked'⟩ := token?_eq_some.mp kind
    rw [Mark.Before, marked, marked']
    rcases List.mem_append.mp among with before | itself
    · exact (List.pairwise_append.mp tiles.inOrder).2.2 second before piece (by simp)
    · rw [List.mem_singleton.mp itself, content] at content'
      cases content'
  · intro other inside
    obtain ⟨second, before, same⟩ := List.mem_filterMap.mp inside
    exact expected second before _ (error?_eq_some.mp same).1

theorem Tiles.errorsInOrder {passed text : List Char} {pieces : List Piece}
    (tiles : Tiles passed text pieces) :
    (pieces.filterMap error?).Pairwise fun first second => first.mark.Before second.mark := by
  refine List.pairwise_filterMap.mpr (tiles.inOrder.imp fun ordered error same other again => ?_)
  rwa [Mark.Before, (error?_eq_some.mp same).2, (error?_eq_some.mp again).2]

theorem Tiles.account {source : String} {pieces : List Piece}
    (tiles : Tiles [] source.toList pieces) (short : source.utf8ByteSize < Span.maxOffset) :
    AccountFor source (pieces.filterMap token?) (pieces.filterMap error?) where
  tokensCover token inside := by
    obtain ⟨piece, among, same⟩ := List.mem_filterMap.mp inside
    rw [(token?_eq_some.mp same).2]
    exact tiles.covers short among
  errorsCover error inside := by
    obtain ⟨piece, among, same⟩ := List.mem_filterMap.mp inside
    rw [(error?_eq_some.mp same).2]
    exact tiles.covers short among
  tokensInOrder := by
    refine List.pairwise_filterMap.mpr (tiles.inOrder.imp fun ordered token same other again => ?_)
    rwa [Mark.Before, (token?_eq_some.mp same).2, (token?_eq_some.mp again).2]
  errorsInOrder := tiles.errorsInOrder
  apart := by
    rw [merged_eq tiles.starts]
    refine List.pairwise_filterMap.mpr (tiles.inOrder.imp fun ordered mark same other again => ?_)
    rwa [Mark.Before, mark?_eq_some same, mark?_eq_some again]
  fill := by
    rw [merged_eq tiles.starts]
    simpa using tiles.fills
  unexpected error := tiles.unexpected
  unterminated error := tiles.unterminated

end Piece

/-- The tokens and errors of a source account for all of it, and the end of the input, which is the
last token and the only one of its kind, stands at its end. -/
theorem Scan.accounts_for_source (source : String)
    (short : source.utf8ByteSize < Span.maxOffset) : ∃ tokens,
    (Scan.ofSource source).tokens =
        tokens ++ [Token.endOfInput (1 + source.toList.count '\n') source.utf8ByteSize] ∧
      (∀ token ∈ tokens, token.kind ≠ .eof) ∧ 1 + source.toList.count '\n' ≤ Span.maxOffset ∧
        AccountFor source tokens (Scan.ofSource source).errors := by
  have tiles := Piece.ofSource_tiles source.toList
  have scanned : Scan.ofSource source = ⟨(Piece.ofSource source.toList).filterMap Piece.token? ++
    [Token.endOfInput (1 + Piece.newlines source.toList) (Piece.width source.toList)],
      (Piece.ofSource source.toList).filterMap Piece.error?⟩ := rfl
  have size : Piece.width source.toList = source.utf8ByteSize := by
    rw [← Piece.size_ofList, String.ofList_toList]
  have lines := Piece.newlines_le_width source.toList
  rw [scanned]
  generalize Piece.ofSource source.toList = pieces at tiles
  refine ⟨pieces.filterMap Piece.token?, ?_, ?_, ?_, ?_⟩
  · rw [size]
    rfl
  · intro token member same
    obtain ⟨piece, among, kind⟩ := List.mem_filterMap.mp member
    obtain ⟨_, _, _, _, described, _⟩ := tiles.part piece among
    rw [(Piece.token?_eq_some.mp kind).1] at described
    cases described with
    | token other => exact other same
  · rw [size] at lines
    exact Nat.le_trans (Nat.add_le_add_left lines 1) (by omega)
  · exact Piece.Tiles.account tiles short

/-- A stray character, a comment and a string without an end behind a name: all of it is accounted
for, on two lines. -/
theorem Scan.accounts_for_source_open_string :
    let source := "f @ /* é */ \"g\n"
    source.utf8ByteSize < Span.maxOffset ∧ ∃ tokens,
      (Scan.ofSource source).tokens = tokens ++ [Token.endOfInput 2 16] ∧
        AccountFor source tokens (Scan.ofSource source).errors := by
  intro source
  have short : source.utf8ByteSize < Span.maxOffset := by decide +kernel
  obtain ⟨tokens, scanned, -, -, account⟩ := accounts_for_source source short
  have size : source.utf8ByteSize = 16 := by decide +kernel
  have lines : 1 + source.toList.count '\n' = 2 := by decide +kernel
  rw [size, lines] at scanned
  exact ⟨short, tokens, scanned, account⟩

end Lox
