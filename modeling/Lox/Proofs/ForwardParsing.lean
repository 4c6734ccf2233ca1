import Lox.Proofs.ParserSteps
import Lox.Proofs.SourceLayout
import Lox.Proofs.SourceSeam

/-! Parsers go forward through a source. The tokens that are left start further and further on, and
what is read behind others starts behind them, however bad the tokens are. -/

namespace Lox

/-- The tokens that are left start further and further on, the end of the input last. -/
structure Cursor.Rising (cursor : Cursor) : Prop where
  closed : Closed cursor.kinds
  sorted : (cursor.current :: cursor.ahead).Pairwise fun first second =>
    first.span.start < second.span.start

/-- Where the next token starts. -/
def Cursor.offset (cursor : Cursor) : Nat := cursor.current.span.start

namespace Cursor

theorem advance_rising {cursor : Cursor} (rising : cursor.Rising) :
    cursor.advance.Rising ∧ (cursor.current.kind ≠ .eof → cursor.offset < cursor.advance.offset) ∧
      cursor.offset ≤ cursor.advance.offset := by
  obtain ⟨previous, current, ahead⟩ := cursor
  by_cases last : current.kind = .eof
  · rw [advance, if_pos (atEnd_iff.mpr last)]
    exact ⟨rising, fun moving => absurd last moving, Nat.le_refl _⟩
  · rw [advance, if_neg (mt atEnd_iff.mp last)]
    cases ahead with
    | nil => exact absurd rfl (rising.closed.tail last).ne_nil
    | cons next ahead =>
      obtain ⟨later, sorted⟩ := List.pairwise_cons.mp rising.sorted
      have before : current.span.start < next.span.start := later next List.mem_cons_self
      exact ⟨⟨rising.closed.tail last, sorted⟩, fun _ => before, Nat.le_of_lt before⟩

private theorem skip_rising (previous current : Token) (ahead : List Token)
    (rising : Rising ⟨previous, current, ahead⟩) : (skip previous current ahead).Rising ∧
      current.span.start ≤ (skip previous current ahead).offset := by
  fun_induction skip previous current ahead with
  | case1 => exact ⟨rising, Nat.le_refl _⟩
  | case2 => exact ⟨rising, Nat.le_refl _⟩
  | case3 previous current next ahead cursor inside ih =>
    have moving : current.kind ≠ .eof := ne_eof_of_inside inside
    obtain ⟨later, sorted⟩ := List.pairwise_cons.mp rising.sorted
    obtain ⟨rises, further⟩ := ih ⟨rising.closed.tail moving, sorted⟩
    exact ⟨rises, Nat.le_trans (Nat.le_of_lt (later next List.mem_cons_self)) further⟩

theorem synchronize_rising {cursor : Cursor} (rising : cursor.Rising) :
    cursor.synchronize.Rising ∧ cursor.offset ≤ cursor.synchronize.offset := by
  obtain ⟨after, -, further⟩ := advance_rising rising
  obtain ⟨rises, further'⟩ := skip_rising _ _ _ after
  exact ⟨rises, Nat.le_trans further further'⟩

end Cursor

namespace Parser

variable {α β : Type}

/-- A parser goes forward, and what it gives is as described up to where it stops. -/
def Forward (parser : Parser α) (start : Progress) (post : α → Nat → Prop) : Prop :=
  match parser start with
  | .ok value stop => stop.cursor.Rising ∧ start.cursor.offset ≤ stop.cursor.offset ∧
      post value stop.cursor.offset
  | .error _ stop => stop.cursor.Rising ∧ start.cursor.offset ≤ stop.cursor.offset

namespace Forward

variable {start : Progress} {parser : Parser α} {next : α → Parser β} {post : α → Nat → Prop}
  {final : β → Nat → Prop}

theorem of_ok {value : α} {stop : Progress} (ran : parser start = .ok value stop)
    (rising : stop.cursor.Rising) (further : start.cursor.offset ≤ stop.cursor.offset)
    (holds : post value stop.cursor.offset) : Forward parser start post := by
  simp only [Forward, ran]
  exact ⟨rising, further, holds⟩

theorem of_failed {halt : Halt} (ran : parser start = .error halt start)
    (rising : start.cursor.Rising) : Forward parser start post := by
  simp only [Forward, ran]
  exact ⟨rising, Nat.le_refl _⟩

theorem pure {value : α} (rising : start.cursor.Rising) (holds : post value start.cursor.offset) :
    Forward (Pure.pure value) start post :=
  of_ok rfl rising (Nat.le_refl _) holds

theorem exhausted (rising : start.cursor.Rising) : Forward (throw .exhausted) start post :=
  of_failed rfl rising

theorem bind (first : Forward parser start post)
    (goesOn : ∀ value middle, middle.cursor.Rising → start.cursor.offset ≤ middle.cursor.offset →
      post value middle.cursor.offset → Forward (next value) middle final) :
    Forward (parser >>= next) start final := by
  unfold Forward at first
  split at first
  next value middle ran =>
    obtain ⟨rising, further, holds⟩ := first
    have rest := goesOn value middle rising further holds
    unfold Forward at rest ⊢
    rw [Sequencing.bind_ok ran]
    split <;> rename_i done <;> rw [done] at rest
    · exact ⟨rest.1, Nat.le_trans further rest.2.1, rest.2.2⟩
    · exact ⟨rest.1, Nat.le_trans further rest.2⟩
  next ran =>
    unfold Forward
    rw [Sequencing.bind_error ran]
    exact first

theorem map {f : α → β} (forward : Forward parser start post)
    (holds : ∀ value stop, post value stop → final (f value) stop) :
    Forward (f <$> parser) start final := by
  rw [map_eq_pure_bind]
  exact forward.bind fun value middle rising _ given => pure rising (holds value _ given)

/-- A parser that only looks. -/
theorem look {value : α} (seen : parser start = .ok value start)
    (goesOn : Forward (next value) start final) : Forward (parser >>= next) start final := by
  unfold Forward at goesOn ⊢
  rwa [Sequencing.bind_ok seen]

theorem choose {test : Parser Bool} {yes no : Parser α}
    (first : Forward (test >>= fun holds => if holds then yes else no) start post)
    (goesOn : ∀ value middle, middle.cursor.Rising → start.cursor.offset ≤ middle.cursor.offset →
      post value middle.cursor.offset → Forward (next value) middle final) :
    Forward (test >>= fun holds => if holds then yes >>= next else no >>= next) start final := by
  rw [if_then_rest]
  exact first.bind goesOn

theorem check {kind : TokenKind} {yes no : Parser α} (taken : Forward yes start post)
    (other : Forward no start post) :
    Forward (check kind >>= fun found => if found then yes else no) start post := by
  refine look rfl ?_
  split
  · exact taken
  · exact other

/-- What a warning adds is not read. -/
theorem warn {condition : Prop} [Decidable condition] {code : Code} {message : String}
    (goesOn : ∀ errors, Forward parser ⟨start.cursor, errors⟩ post) :
    Forward (if condition then reportHere code message >>= fun _ => parser else parser) start post := by
  split
  · have rest := goesOn (start.errors.push (start.cursor.errorHere code message))
    unfold Forward at rest ⊢
    exact rest
  · exact goesOn start.errors

theorem of_advanced {value : α} (rising : start.cursor.Rising) (moving : start.here ≠ .eof)
    (ran : parser start = .ok value start.advanced)
    (holds : start.cursor.offset < start.cursor.advance.offset →
      post value start.cursor.advance.offset) : Forward parser start post := by
  obtain ⟨after, before, further⟩ := Cursor.advance_rising rising
  exact of_ok ran after further (holds (before moving))

theorem advance {next : Unit → Parser β} (rising : start.cursor.Rising) (moving : start.here ≠ .eof)
    (goesOn : ∀ middle, middle.cursor.Rising → start.cursor.offset < middle.cursor.offset →
      Forward (next ()) middle final) : Forward (Parser.advance >>= next) start final := by
  have stepped : Forward Parser.advance start fun _ stop => start.cursor.offset < stop :=
    of_advanced rising moving rfl id
  exact stepped.bind fun _ middle rising _ before => goesOn middle rising before

theorem eat {kind : TokenKind} {yes no : Parser α} (rising : start.cursor.Rising) (fixed : kind.Fixed)
    (taken : ∀ middle, middle.cursor.Rising → start.cursor.offset < middle.cursor.offset →
      Forward yes middle post) (other : Forward no start post) :
    Forward (Parser.eat kind >>= fun eaten => if eaten then yes else no) start post := by
  by_cases stands : start.here = kind
  · have stepped : Forward (Parser.eat kind) start fun eaten stop =>
        eaten = true ∧ start.cursor.offset < stop :=
      of_advanced rising (stands ▸ fixed.ne_eof) (eat_taken fixed stands) fun before => ⟨rfl, before⟩
    refine stepped.bind fun eaten middle rising _ step => ?_
    rw [if_pos step.1]
    exact taken middle rising step.2
  · exact look (eat_other fixed stands) (by simpa using other)

theorem expect {kind : TokenKind} {message : String} (rising : start.cursor.Rising)
    (fixed : kind.Fixed) : Forward (Parser.expect kind message) start fun token stop =>
      token.span.start = start.cursor.offset ∧ start.cursor.offset < stop := by
  by_cases stands : start.here = kind
  · exact of_advanced rising (stands ▸ fixed.ne_eof) (expect_taken fixed stands) fun before =>
      ⟨rfl, before⟩
  · exact of_failed (expect_other fixed stands) rising

theorem expectName {message : String} (rising : start.cursor.Rising) :
    Forward (Parser.expectName message) start fun _ _ => True := by
  by_cases named : ∃ name, start.here = .identifier name
  · obtain ⟨name, stands⟩ := named
    exact of_advanced rising (by simp [stands]) (expectName_taken stands) fun _ => trivial
  · exact of_failed (expectName_other (not_exists.mp named)) rising

theorem recover (forward : Forward parser start post) :
    Forward (Parser.recover parser) start fun found stop =>
      ∀ value, found = some value → post value stop := by
  unfold Forward Parser.recover at *
  split at forward <;> rename_i ran <;> simp only [ran]
  · refine ⟨forward.1, forward.2.1, fun value same => ?_⟩
    exact Option.some.inj same ▸ forward.2.2
  · rename_i halt stop
    cases halt with
    | exhausted => exact forward
    | failed error =>
      obtain ⟨after, further⟩ := Cursor.synchronize_rising forward.1
      exact ⟨after, Nat.le_trans forward.2 further, nofun⟩

end Forward

end Parser

/-- The tokens of a source stand one behind another, and those before the last are not empty. -/
theorem Scan.tokens_apart (source : String) : (ofSource source).tokens.Pairwise fun first second =>
    first.span.start < first.span.stop ∧ first.span.stop ≤ second.span.start := by
  have tiles := Piece.ofSource_tiles source.toList
  have scanned : (ofSource source).tokens = (Piece.ofSource source.toList).filterMap Piece.token? ++
    [Token.endOfInput (1 + Piece.newlines source.toList) (Piece.width source.toList)] := rfl
  have span {piece : Piece} {token : Token} (same : piece.token? = some token) :
      token.span = piece.span :=
    congrArg Mark.span (Piece.token?_eq_some.mp same).2
  have filled {piece : Piece} (member : piece ∈ Piece.ofSource source.toList) :
      piece.span.start < piece.span.stop ∧ piece.span.stop ≤ Piece.width source.toList := by
    obtain ⟨before, after, whole, filled, -, -, place⟩ := tiles.part piece member
    have positive := Piece.width_pos filled
    have size : Piece.width source.toList =
        Piece.width before + Piece.width piece.lexeme + Piece.width after := by
      rw [← Piece.width_append, ← Piece.width_append, ← whole, List.nil_append]
    rw [place, Piece.width_append]
    exact ⟨by simp only; omega, by simp only; omega⟩
  rw [scanned]
  refine List.pairwise_append.mpr ⟨?_, List.pairwise_singleton .., ?_⟩
  · refine List.pairwise_filterMap.mpr ?_
    refine tiles.inOrder.imp_of_mem fun member _ before token same other same' => ?_
    rw [span same, span same']
    exact ⟨(filled member).1, before⟩
  · intro token member last final
    obtain rfl := List.mem_singleton.mp final
    obtain ⟨piece, among, same⟩ := List.mem_filterMap.mp member
    rw [span same]
    exact filled among

/-- The tokens of a source start one behind another. -/
theorem Scan.tokens_sorted (source : String) : (ofSource source).tokens.Pairwise
    fun first second => first.span.start < second.span.start :=
  (tokens_apart source).imp fun ⟨filled, before⟩ => Nat.lt_of_lt_of_le filled before

/-- A source is parsed from its first token on. -/
theorem Scan.start_rising (source : String) :
    (Cursor.ofTokens (ofSource source).tokens).Rising := by
  have closed := tokens_closed source
  have sorted := tokens_sorted source
  generalize (ofSource source).tokens = tokens at closed sorted
  cases tokens with
  | nil => exact absurd rfl closed.ne_nil
  | cons first rest => exact ⟨closed, sorted⟩

end Lox
