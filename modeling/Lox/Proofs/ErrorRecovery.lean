import Lox.Proofs.DeclarationCalls
import Lox.Proofs.ParserGrammar
import Lox.Proofs.StatementExactness

/-! Parsing ends and recovers from every error, however bad the tokens are. -/

namespace Lox
open Lox.Parser Progress

theorem Closed.count_inside {kinds : List TokenKind} (closed : Closed kinds) :
    kinds.countP (· ≠ .eof) + 1 = kinds.length := by
  induction closed with
  | last => rfl
  | cons other _ ih =>
    rw [List.countP_cons_of_pos (by simpa using other), ih, List.length_cons]

namespace Parsed

/-- The declarations that parsing the tokens tries, in the order in which they end. -/
def attempts (tokens : List Token) : List Attempt :=
  Calls.ofProgram (budget tokens) (start tokens)

/-- An attempt in the course of parsing the tokens. -/
structure Advances (tokens : List Token) (attempt : Attempt) : Prop where
  inside : attempt.start.here ≠ .eof
  consumes : ∃ first last, attempt.start.cursor.At tokens first ∧
    attempt.stop.cursor.At tokens last ∧ first < last
  fails : attempt.found = none ↔ ∃ error, attempt.own = some error ∧ error.code.breaks = true
  /-- What it reports besides is reported by attempts in it. -/
  reports : ∃ fuel inner, Parser.declaration fuel attempt.start = .ok attempt.found attempt.stop ∧
    Calls.ofDeclaration fuel attempt.start = inner ++ [attempt] ∧
    attempt.stop.broken =
      attempt.start.broken ++ inner.filterMap Attempt.own ++ attempt.own.toList

/-- Parsing ends, goes forward only, and recovers from each error behind at least one token. -/
structure Recovers (tokens : List Token) : Prop where
  ends : ∃ program stop, Parser.program (budget tokens) #[] (start tokens) = .ok program stop ∧
    ofTokens tokens = ⟨program, stop.errors.toList⟩ ∧ stop.here = .eof ∧
    stop.cursor.At tokens (tokens.length - 1)
  made : Made true (Parser.program (budget tokens) #[])
  /-- No parser that parsing is made of goes back or past the last token, wherever it starts. -/
  forward : ∀ {α : Type} (parser : Parser α), Made true parser → ∀ origin first,
    origin.cursor.At tokens first →
      match parser origin with
      | .ok _ stop => ∃ last, first ≤ last ∧ stop.cursor.At tokens last
      | .error _ stop => ∃ last, first ≤ last ∧ stop.cursor.At tokens last
  consumes : ∀ fuel origin first, origin.cursor.At tokens first → origin.here ≠ .eof →
    16 * origin.left + 12 ≤ fuel → ∃ found stop, declaration fuel origin = .ok found stop ∧
      ∃ last, stop.cursor.At tokens last ∧ first < last
  advances : ∀ attempt ∈ attempts tokens, Advances tokens attempt
  reports : (ofTokens tokens).errors.filter (·.code.breaks) =
    (attempts tokens).filterMap Attempt.own
  bounded : ((ofTokens tokens).errors.filter (·.code.breaks)).length ≤
    tokens.countP (·.kind ≠ .eof)

variable {tokens : List Token}

theorem start_at (closed : Closed (tokens.map Token.kind)) : (start tokens).cursor.At tokens 0 :=
  Cursor.ofTokens_at (by simpa using closed.ne_nil)

/-- Fewer tokens are left further on. -/
theorem further {origin stop : Progress} {first : Nat} (steps : Steps true origin stop)
    (stands : origin.cursor.At tokens first) (fewer : stop.left < origin.left) :
    ∃ last, stop.cursor.At tokens last ∧ first < last := by
  obtain ⟨last, -, stands'⟩ := steps.onwards stands
  have before := stands.left
  have behind := stands'.left
  refine ⟨last, stands', ?_⟩
  simp only [left, kinds] at fewer
  omega

theorem declaration_consumes (closed : Closed (tokens.map Token.kind)) {fuel first : Nat}
    {origin : Progress} (stands : origin.cursor.At tokens first) (inside : origin.here ≠ .eof)
    (enough : 16 * origin.left + 12 ≤ fuel) : ∃ found stop,
      declaration fuel origin = .ok found stop ∧ ∃ last, stop.cursor.At tokens last ∧ first < last := by
  have more : 2 ≤ origin.left :=
    two_left (stands.closed closed) (mt Cursor.atEnd_iff.mp inside)
  have lasts := declaration_lasts fuel origin (stands.closed closed) more enough
  have walks := (declaration_made fuel).walks origin
  unfold Lasts at lasts
  split at lasts
  next found stop ran =>
    rw [Walks, ran] at walks
    exact ⟨found, stop, ran, further walks stands (by omega)⟩
  next error stop ran =>
    cases fuel with
    | zero => cases ran
    | succ fuel => exact absurd ran recover_not_failed
  next => exact lasts.elim

theorem attempt_advances (closed : Closed (tokens.map Token.kind)) {attempt : Attempt}
    (proper : attempt.Proper (start tokens)) : Advances tokens attempt := by
  obtain ⟨first, -, stands⟩ := proper.before.onwards (start_at closed)
  obtain ⟨last, stands', before⟩ := further proper.onwards stands proper.consumes
  obtain ⟨fuel, ran⟩ := proper.made
  obtain ⟨inner, ended⟩ := Calls.ofDeclaration_ok ran
  have account := Calls.ofDeclaration_account fuel attempt.start (stands.closed closed) proper.inside
  have settled := account.settled
  rw [ran, Calls.owned, ended, List.filterMap_append] at settled
  refine ⟨proper.inside, ⟨first, last, stands, stands', before⟩, ⟨proper.own, ?_⟩, fuel, inner, ran,
    ended, ?_⟩
  · rintro ⟨error, own, -⟩
    cases found : attempt.found with
    | none => rfl
    | some stmt => simp [Attempt.own, found] at own
  · rw [settled.1, List.append_assoc]
    cases own : attempt.own <;> simp [own]

/-- Parsing ends and makes progress however bad the tokens are. -/
theorem parsing_recovers (closed : Closed (tokens.map Token.kind)) : Recovers tokens := by
  obtain ⟨program, stop, ran, same⟩ := ofTokens_eq closed
  have made := program_made (budget tokens) #[]
  have stands := start_at closed
  have forward := made.forward stands
  have account := Calls.ofProgram_account (budget tokens) #[] (start tokens) (stands.closed closed)
  have settled := account.settled
  rw [ran] at forward settled
  have reports : (ofTokens tokens).errors.filter (·.code.breaks) =
      (attempts tokens).filterMap Attempt.own := by
    rw [same]
    exact settled.1
  constructor
  case ends =>
    obtain ⟨last, -, final⟩ := forward
    have ended : stop.here = .eof := program_stops_at_end _ _ ran
    exact ⟨program, stop, ran, same, ended, final.at_end closed ended ▸ final⟩
  case made => exact made
  case forward =>
    intro α parser made origin first stands
    exact made.forward stands
  case consumes =>
    intro fuel origin first stands inside enough
    exact declaration_consumes closed stands inside enough
  case advances =>
    intro attempt member
    exact attempt_advances closed (account.proper attempt member)
  case reports => exact reports
  case bounded =>
    have charged : ((attempts tokens).filterMap Attempt.own).length + 0 + stop.left ≤
      (start tokens).left := settled.2
    have some : 1 ≤ stop.left := Nat.succ_pos _
    have sizes : (start tokens).left + 0 = tokens.length := stands.left
    have counted := closed.count_inside
    rw [List.countP_map, List.length_map] at counted
    rw [reports]
    apply Nat.le_of_succ_le_succ
    calc ((attempts tokens).filterMap Attempt.own).length + 1
      _ ≤ tokens.length := by omega
      _ = tokens.countP (·.kind ≠ .eof) + 1 := counted.symm

/-- An error in a block that the next keyword is in the way of, and another at the end. -/
theorem parsing_recovers_at_keyword :
    let kinds : List TokenKind :=
      [.symbol .leftBrace, .keyword .varWord, .keyword .funWord, .eof]
    let tokens := kinds.map fun kind => Token.mk kind "" 1 (.point 0)
    Closed (tokens.map Token.kind) ∧ Recovers tokens ∧
      (attempts tokens).map (fun attempt => (attempt.start.left, attempt.stop.left,
        attempt.own.map ParseError.code)) =
        [(3, 1, some .expectedIdentifier), (4, 1, some .expectedToken)] := by
  intro kinds tokens
  have inside : TokenKind.eof ∉ kinds.dropLast := by decide
  have closed : Closed (tokens.map Token.kind) := closed_append_eof inside
  exact ⟨closed, parsing_recovers closed, by rfl⟩

end Parsed
end Lox
