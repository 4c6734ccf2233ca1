import Lox.Proofs.GrammarComplete
import Lox.Proofs.GrammarSound
import Lox.Proofs.ParserBudget

/-! The parser and the grammar agree on every sequence of tokens that ends as sources do. -/

namespace Lox.Parsed
open Grammar Lox.Parser

/-- Where parsing the tokens begins. -/
def start (tokens : List Token) : Progress := ⟨.ofTokens tokens, #[]⟩

theorem start_kinds {tokens : List Token} (some : tokens ≠ []) :
    (start tokens).kinds = tokens.map Token.kind := by
  cases tokens with
  | nil => exact absurd rfl some
  | cons first rest => rfl

theorem ofTokens_eq {tokens : List Token} (closed : Closed (tokens.map Token.kind)) :
    ∃ value stop, Parser.program (budget tokens) #[] (start tokens) = .ok value stop ∧
      ofTokens tokens = ⟨value, stop.errors.toList⟩ := by
  have stands : (start tokens).kinds = tokens.map Token.kind :=
    start_kinds (by simpa using closed.ne_nil)
  have enough : 16 * (start tokens).left + 13 ≤ budget tokens := by
    simp only [Progress.left, stands, List.length_map, budget]
    omega
  obtain ⟨value, stop, ran⟩ := program_ends (stands ▸ closed) enough
  refine ⟨value, stop, ran, ?_⟩
  rw [start] at ran
  rw [ofTokens, ran]

/-- The parser accepts exactly the programs that the grammar derives, and with the same trees. -/
theorem accepts_exactly_the_grammar {tokens : List Token} (closed : Closed (tokens.map Token.kind))
    (trees : List (Stmt Unit)) :
    (ofTokens tokens).errors = [] ∧ (ofTokens tokens).program.map Stmt.bare = trees ↔
      Derives (tokens.map Token.kind) trees := by
  have stands : (start tokens).kinds = tokens.map Token.kind :=
    start_kinds (by simpa using closed.ne_nil)
  obtain ⟨value, stop, ran, same⟩ := ofTokens_eq closed
  rw [same]
  constructor
  · rintro ⟨clean, bare⟩
    have read := program_reads (budget tokens) #[] (start tokens)
    rw [ran] at read
    have unchanged : stop.errors.size = (start tokens).errors.size := congrArg List.length clean
    obtain ⟨closed', phrase, read, stmts, rfl, ended, derived⟩ :=
      read.2 (stands ▸ closed) unchanged
    have last : stop.kinds = [.eof] := by
      obtain ⟨rest, same⟩ : ∃ rest, stop.kinds = .eof :: rest :=
        List.head?_eq_some_iff.mp ended
      rw [same] at closed' ⊢
      rw [closed'.eof_last]
    rw [← stands, read, last, ← bare]
    exact .program (by simpa using derived)
  · intro derives
    generalize kinds : tokens.map Token.kind = whole at derives
    cases derives with
    | program body =>
      have accepted := program_accepts (budget tokens) body #[] (stands.trans kinds)
      unfold Accepts at accepted
      rw [ran] at accepted
      obtain ⟨bare, -, clean⟩ := accepted
      exact ⟨by rw [clean]; rfl, by simpa using bare⟩

/-- A program in which an `else` could belong to two conditions. -/
theorem accepts_exactly_the_grammar_nearest_if :
    let name (text : String) : TokenKind := .identifier text
    let kinds : List TokenKind := [.keyword .ifWord, .symbol .leftParen, name "a",
      .symbol .rightParen, .keyword .ifWord, .symbol .leftParen, name "b", .symbol .rightParen,
      name "f", .symbol .leftParen, .symbol .rightParen, .symbol .semicolon, .keyword .elseWord,
      name "x", .symbol .equal, name "y", .symbol .semicolon, .eof]
    let tokens := kinds.map fun kind => Token.mk kind "" 1 (.point 0)
    Closed (tokens.map Token.kind) ∧ (ofTokens tokens).errors = [] ∧
      (ofTokens tokens).program.map Stmt.bare =
        [.ifThen () (.name () "a") (.ifElse () (.name () "b")
          (.expression () (.call () (.name () "f") []))
          (.expression () (.assign () "x" (.name () "y"))))] := by
  intro name kinds tokens
  have inside : TokenKind.eof ∉ kinds.dropLast := by decide
  have closed : Closed (tokens.map Token.kind) := closed_append_eof inside
  have named (text : String) : Expression [name text] (.name () text) :=
    .operation (.name text allLevels)
  have called : Expression [name "f", .symbol .leftParen, .symbol .rightParen]
      (.call () (.name () "f") []) :=
    .operation (.single (.single (.single (.single (.single (.single (.operand (.call
      (.call (.primary (.leaf .name)) .none (Nat.zero_le _))))))))))
  have assigned : Expression [name "x", .symbol .equal, name "y"]
      (.assign () "x" (.name () "y")) := .assign (named "y")
  have inner := Statement.ifElse (named "b") (.expression called) (.expression assigned)
  have outer := Declaration.statement (Statement.ifThen (named "a") inner)
  exact ⟨closed, (accepts_exactly_the_grammar closed _).mpr (.program (.cons outer .nil))⟩

end Lox.Parsed
