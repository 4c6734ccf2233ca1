import Lox.Proofs.LayoutIndependence

/-! Tokens written out with a space between any two of them are read back as they were. A space ends
every token and begins none. -/

namespace Lox
namespace Scan

/-- The texts of tokens in their order, with single spaces between them. -/
def respaced (tokens : List Token) : String := " ".intercalate (tokens.map Token.lexeme)

/-- A source without faults is read to these tokens, at whatever places. -/
structure Gives (source : String) (tokens : List Token) : Prop where
  clean : (ofSource source).errors = []
  same : (ofSource source).tokens.map Token.plain = tokens.map Token.plain

/-- Wherever the text stands, its pieces are these tokens and blanks. -/
private def Reads (text : List Char) (tokens : List Token) : Prop :=
  ∀ offset line, (Piece.collect #[] offset line text).toList.filterMap Piece.error? = [] ∧
    ((Piece.collect #[] offset line text).toList.filterMap Piece.token?).map Token.plain =
      tokens.map Token.plain

namespace Reads

private theorem nil : Reads [] [] := by
  intro offset line
  simp [Piece.collect]

/-- What is cut off from a text has the pieces of the rest behind it. -/
private theorem collect_cut {text : List Char} {cut : Cut} (front : Cut.ofChars? text = some cut)
    (offset line : Nat) : ∃ piece further below, piece.content = cut.content ∧
      piece.lexeme = cut.lexeme ∧ (Piece.collect #[] offset line text).toList =
        piece :: (Piece.collect #[] further below cut.rest).toList := by
  cases text with
  | nil => cases front
  | cons first text =>
    obtain rfl := Option.some.inj front
    let cut := Cut.ofText first text
    let further := offset + Piece.width cut.lexeme
    let below := line + Piece.newlines cut.lexeme
    refine ⟨⟨cut.content, cut.lexeme, below, ⟨offset, further⟩⟩, further, below, rfl, rfl, ?_⟩
    rw [Piece.collect, Piece.collect_append, Array.toList_append]
    rfl

private theorem space {rest : List Char} {tokens : List Token} (reads : Reads rest tokens) :
    Reads (' ' :: rest) tokens := by
  intro offset line
  have front : Cut.ofChars? (' ' :: rest) = some ⟨.blank, [' '], rest⟩ := rfl
  obtain ⟨piece, further, below, content, -, pieces⟩ := collect_cut front offset line
  rw [pieces, List.filterMap_cons_none (by simp [Piece.error?, content]),
    List.filterMap_cons_none (by simp [Piece.token?, content])]
  exact reads further below

private theorem token {token : Token} {rest : List Char} {tokens : List Token}
    (front : Cut.ofChars? (token.lexeme.toList ++ rest) =
      some ⟨.token token.kind, token.lexeme.toList, rest⟩)
    (reads : Reads rest tokens) : Reads (token.lexeme.toList ++ rest) (token :: tokens) := by
  intro offset line
  obtain ⟨piece, further, below, content, lexeme, pieces⟩ := collect_cut front offset line
  have found : piece.token? = some ⟨token.kind, token.lexeme, piece.line, piece.span⟩ := by
    simp [Piece.token?, content, lexeme]
  obtain ⟨clean, same⟩ := reads further below
  rw [pieces, List.filterMap_cons_none (by simp [Piece.error?, content]),
    List.filterMap_cons_some found, List.map_cons, same]
  exact ⟨clean, rfl⟩

/-- What is written behind the tokens is empty, whether or not a space comes before it. -/
private theorem spaced {behind : List String} (nothing : " ".intercalate behind = "")
    {tokens : List Token} (again : ∀ token ∈ tokens, ∀ rest, Cut.Delimited rest →
      Cut.ofChars? (token.lexeme.toList ++ rest) =
        some ⟨.token token.kind, token.lexeme.toList, rest⟩) :
    Reads (" ".intercalate (tokens.map Token.lexeme ++ behind)).toList tokens := by
  induction tokens with
  | nil =>
    rw [List.map_nil, List.nil_append, nothing]
    exact nil
  | cons token tokens ih =>
    have reads := ih fun other member => again other (List.mem_cons_of_mem _ member)
    have front := again token List.mem_cons_self
    rw [List.map_cons, List.cons_append]
    cases left : tokens.map Token.lexeme ++ behind with
    | nil =>
      rw [left] at reads
      have alone := Reads.token (front [] nofun) reads
      simpa using alone
    | cons other others =>
      rw [left] at reads
      have delimited : Cut.Delimited (' ' :: (" ".intercalate (other :: others)).toList) := by
        intro char first
        cases first
        decide
      have apart := Reads.token (front _ delimited) reads.space
      simpa using apart

end Reads

/-- The texts of the tokens of a source, with spaces between them, are read to the same tokens, with
or without the end of the input among them. -/
theorem respaced_reads_back (source : String) :
    Gives (respaced (ofSource source).tokens) (ofSource source).tokens ∧
      Gives (respaced (ofSource source).tokens.dropLast) (ofSource source).tokens := by
  have gives {behind : List String} (nothing : " ".intercalate behind = "") :
      Gives (" ".intercalate ((own source).map Token.lexeme ++ behind)) (ofSource source).tokens := by
    have again : ∀ token ∈ own source, ∀ rest, Cut.Delimited rest →
        Cut.ofChars? (token.lexeme.toList ++ rest) =
          some ⟨.token token.kind, token.lexeme.toList, rest⟩ :=
      fun token member rest delimited => own_again member delimited
    obtain ⟨clean, same⟩ := Reads.spaced nothing again 0 1
    refine ⟨clean, ?_⟩
    obtain ⟨line, offset, tokens⟩ := tokens_eq source
    obtain ⟨line', offset', tokens'⟩ :=
      tokens_eq (" ".intercalate ((own source).map Token.lexeme ++ behind))
    rw [tokens, tokens', List.map_append, List.map_append]
    exact congrArg (· ++ [Token.plain _]) same
  obtain ⟨line, offset, tokens⟩ := tokens_eq source
  rw [respaced, respaced, tokens, List.dropLast_concat, List.map_append, ← tokens]
  have alone := gives String.intercalate_nil
  rw [List.append_nil] at alone
  exact ⟨gives String.intercalate_singleton, alone⟩

/-- Comments are no tokens, and the end of the input has no text. -/
example : respaced (ofSource "a//b\n.\"//\"").tokens = "a . \"//\" " := by decide +kernel

end Scan
end Lox
