import Lox.Proofs.ParserFuel
import Lox.Proofs.ParserSeam

/-! Declarations without an error in front of others. Parsing goes on behind them as if it began
there, whatever is wrong with what comes next. -/

namespace Lox

/-- The same place, but reached from another token. -/
def Progress.reached (progress : Progress) (previous : Token) : Progress :=
  ⟨⟨previous, progress.cursor.current, progress.cursor.ahead⟩, progress.errors⟩

namespace Progress

variable {progress : Progress} {previous : Token}

/-- A step forgets where it came from. -/
theorem reached_advanced (closed : Closed progress.kinds) (moving : progress.here ≠ .eof) :
    (progress.reached previous).advanced = progress.advanced := by
  obtain ⟨⟨before, current, ahead⟩, errors⟩ := progress
  have inside (before : Token) : ¬ Cursor.atEnd ⟨before, current, ahead⟩ = true :=
    mt Cursor.atEnd_iff.mp moving
  cases ahead with
  | nil => exact absurd rfl (closed.tail moving).ne_nil
  | cons next ahead => simp [advanced, reached, Cursor.advance, inside]

theorem reached_synchronize (closed : Closed progress.kinds) (moving : progress.here ≠ .eof) :
    (progress.reached previous).cursor.synchronize = progress.cursor.synchronize := by
  have same : (progress.reached previous).cursor.advance = progress.cursor.advance :=
    congrArg Progress.cursor (reached_advanced closed moving)
  rw [Cursor.synchronize, Cursor.synchronize, same]

end Progress

namespace Parser

variable {α β : Type}

/-- The parser does the same wherever its first token was reached from. Only if it stops at that
token, where it came from can still be seen. -/
def Forgets (parser : Parser α) : Prop :=
  ∀ start previous, Closed start.kinds → start.here ≠ .eof →
    parser (start.reached previous) = parser start ∨
      ∃ halt, parser start = .error halt start ∧
        parser (start.reached previous) = .error halt (start.reached previous)

namespace Forgets

variable {parser : Parser α} {next : α → Parser β}

theorem exhausted : Forgets (throw .exhausted : Parser α) :=
  fun _ _ _ _ => .inr ⟨.exhausted, rfl, rfl⟩

theorem fail {code : Code} {message : String} : Forgets (failHere code message : Parser α) :=
  fun _ _ _ _ => .inr ⟨_, rfl, rfl⟩

theorem bind (first : Forgets parser) : Forgets (parser >>= next) := by
  intro start previous closed moving
  rcases first start previous closed moving with same | ⟨halt, ran, ran'⟩
  · refine .inl ?_
    rcases Sequencing.bind_alike same with ⟨value, middle, ran, ran'⟩ | same
    · exact ran.trans ran'.symm
    · exact same
  · exact .inr ⟨halt, Sequencing.bind_error ran, Sequencing.bind_error ran'⟩

theorem current {next : Token → Parser β} (goesOn : ∀ token, Forgets (next token)) :
    Forgets (current >>= next) :=
  fun start previous closed moving => goesOn start.cursor.current start previous closed moving

theorem advance {next : Unit → Parser β} : Forgets (advance >>= next) := by
  intro start previous closed moving
  refine .inl ?_
  change next () (start.reached previous).advanced = next () start.advanced
  rw [Progress.reached_advanced closed moving]

theorem eat {kind : TokenKind} {yes no : Parser β} (fixed : kind.Fixed) (other : Forgets no) :
    Forgets (eat kind >>= fun eaten => if eaten then yes else no) := by
  intro start previous closed moving
  by_cases stands : start.here = kind
  · have eaten' : Parser.eat kind (start.reached previous) =
        .ok true (start.reached previous).advanced := eat_taken fixed stands
    rw [Progress.reached_advanced closed moving] at eaten'
    rw [Sequencing.bind_ok (eat_taken fixed stands), Sequencing.bind_ok eaten']
    exact .inl rfl
  · have skipped' : Parser.eat kind (start.reached previous) = .ok false (start.reached previous) :=
      eat_other fixed stands
    rw [Sequencing.bind_ok (eat_other fixed stands), Sequencing.bind_ok skipped']
    exact other start previous closed moving

/-- Taking up parsing again steps past the first token at least. -/
theorem recover (forgets : Forgets parser) : Forgets (recover parser) := by
  intro start previous closed moving
  rcases forgets start previous closed moving with same | ⟨halt, ran, ran'⟩
  · exact .inl (by simp only [Parser.recover, same])
  · cases halt with
    | exhausted => exact .inr ⟨.exhausted, by simp only [Parser.recover, ran],
        by simp only [Parser.recover, ran']⟩
    | failed error =>
      refine .inl ?_
      simp only [Parser.recover, ran, ran']
      rw [Progress.reached_synchronize closed moving]
      rfl

end Forgets

theorem primary_forgets (fuel : Nat) : Forgets (primary fuel) := by
  cases fuel with
  | zero => exact .exhausted
  | succ fuel =>
    refine .current fun token => .eat .symbol ?_
    split
    · exact .advance
    · exact .fail

theorem unary_forgets (fuel : Nat) : Forgets (unary fuel) := by
  cases fuel with
  | zero => exact .exhausted
  | succ fuel =>
    refine .current fun token => ?_
    split
    · exact .advance
    · exact (primary_forgets fuel).bind

theorem chain_forgets (fuel : Nat) (levels : List Level) : Forgets (chain fuel levels) := by
  induction fuel generalizing levels with
  | zero => exact .exhausted
  | succ fuel ih =>
    cases levels with
    | nil => exact unary_forgets fuel
    | cons level tighter => exact (ih tighter).bind

theorem expression_forgets (fuel : Nat) : Forgets (expression fuel) := by
  cases fuel with
  | zero => exact .exhausted
  | succ fuel => exact (chain_forgets fuel Level.all).bind

theorem statement_forgets (fuel : Nat) : Forgets (statement fuel) := by
  cases fuel with
  | zero => exact .exhausted
  | succ fuel =>
    refine .current fun keyword => ?_
    split
    case h_9 => exact (expression_forgets fuel).bind
    all_goals exact .advance

theorem declaration_forgets (fuel : Nat) : Forgets (declaration fuel) := by
  cases fuel with
  | zero => exact .exhausted
  | succ fuel =>
    exact .recover (.current fun _ => .eat .keyword (.eat .keyword (statement_forgets fuel)))

/-- Programs do not depend on where their first token was reached from. -/
theorem program_reached {fuel : Nat} {before : Array (Stmt Place)} {start stop : Progress}
    {value : Program} (closed : Closed start.kinds)
    (ran : program fuel before start = .ok value stop) (previous : Token) :
    ∃ stop', program fuel before (start.reached previous) = .ok value stop' ∧
      stop'.errors = stop.errors := by
  cases fuel with
  | zero => cases ran
  | succ fuel =>
    by_cases ended : start.here = .eof
    · rw [program_ended ended] at ran
      cases ran
      exact ⟨start.reached previous, program_ended ended, rfl⟩
    · have ended' : (start.reached previous).here ≠ .eof := ended
      rw [program_inside ended] at ran
      rw [program_inside ended']
      rcases (declaration_forgets fuel).bind start previous closed ended with
        same | ⟨halt, failed, _⟩
      · exact ⟨stop, same.trans ran, rfl⟩
      · rw [failed] at ran
        cases ran

/-- The declarations before are only kept. -/
theorem program_before (fuel : Nat) (before : Array (Stmt Place)) :
    program fuel before = (before.toList ++ ·) <$> program fuel #[] := by
  induction fuel generalizing before with
  | zero => rfl
  | succ fuel ih =>
    rw [program, program, map_bind]
    refine congrArg (atEnd >>= ·) (funext fun ended => ?_)
    split
    · simp
    · rw [map_bind]
      refine congrArg (declaration fuel >>= ·) (funext fun found => ?_)
      cases found with
      | none => exact ih before
      | some stmt =>
        change program fuel (before.push stmt) = (before.toList ++ ·) <$> program fuel #[stmt]
        rw [ih (before.push stmt), ih #[stmt], ← comp_map]
        congr 1
        funext rest
        simp

end Parser

namespace Parsed
open Lox.Parser Grammar

theorem start_tokens {tokens : List Token} (some : tokens ≠ []) : (start tokens).tokens = tokens := by
  cases tokens with
  | nil => exact absurd rfl some
  | cons first rest => rfl

theorem closed_front {front second : List Token} (inner : ∀ token ∈ front, token.kind ≠ .eof)
    (closed : Closed (second.map Token.kind)) : Closed ((front ++ second).map Token.kind) := by
  rw [List.map_append]
  exact closed_append (by simpa using inner) closed

section
variable {front second : List Token} {last : Token} (ended : last.kind = .eof)
  (inner : ∀ token ∈ front, token.kind ≠ .eof) (closed : Closed (second.map Token.kind))
  (begins : (second.map Token.kind).head? ≠ some (.keyword .elseWord))
  (clean : (ofTokens (front ++ [last])).errors = [])
include ended inner closed begins clean

/-- Behind declarations without an error, parsing goes on as it begins on the rest alone. -/
theorem program_resumes {value : Program} {stop : Progress}
    (ran : Parser.program (budget (front ++ second)) #[] (start (front ++ second)) = .ok value stop) :
    ∃ rest fuel other, value = (ofTokens (front ++ [last])).program ++ rest ∧
      Parser.program fuel #[] (start second) = .ok rest other ∧ other.errors = stop.errors := by
  obtain ⟨next, ahead, rfl⟩ := List.exists_cons_of_ne_nil (by simpa using closed.ne_nil)
  have closedFirst : Closed ((front ++ [last]).map Token.kind) :=
    closed_front inner (by simpa [ended] using Closed.last)
  obtain ⟨read, ending, first, whole⟩ := ofTokens_eq closedFirst
  rw [whole] at clean ⊢
  have nothing : ending.errors = #[] := Array.toList_eq_nil_iff.mp clean
  let seam : Seam := ⟨last, next, ahead, ended, fun same => begins (congrArg some same)⟩
  -- With nothing in front the two inputs are not reached from the same token.
  have entered : (start (front ++ next :: ahead)).kinds = (front ++ next :: ahead).map Token.kind :=
    start_kinds (by simp)
  obtain ⟨reached, ran, same⟩ := program_reached (entered ▸ closed_front inner closed) ran
    (start (front ++ [last])).cursor.previous
  have beside : seam.Beside front (start (front ++ [last]))
      ((start (front ++ next :: ahead)).reached (start (front ++ [last])).cursor.previous) :=
    ⟨inner, start_tokens (by simp), start_tokens (by simp), rfl, rfl⟩
  obtain ⟨extra, more⟩ : ∃ extra, budget (front ++ next :: ahead) =
      extra + budget (front ++ [last]) := by
    refine Nat.exists_eq_add_of_le' ?_
    simp only [budget, List.length_append, List.length_cons, List.length_nil]
    omega
  obtain ⟨fuel, after, atSeam, goesOn⟩ :=
    seam.program_follows extra _ #[] beside first (congrArg Array.size nothing)
  rw [more, goesOn, program_before] at ran
  obtain ⟨rest, resumed, rfl⟩ := Sequencing.exists_of_map_ok ran
  have stands : after.kinds = (next :: ahead).map Token.kind := by
    rw [Progress.kinds_eq, atSeam.joined, List.nil_append]
  have unread : after.reached next = start (next :: ahead) := by
    obtain ⟨here, further⟩ := List.cons.inj atSeam.joined
    rw [Progress.reached, here, further, atSeam.errors, nothing]
    rfl
  obtain ⟨other, resumed, same'⟩ := program_reached (stands ▸ closed) resumed next
  rw [unread] at resumed
  exact ⟨rest, fuel, other, by rfl, resumed, same'.trans same⟩

end

/-- Two inputs that are programs by themselves are one program when the second stands in place of
the end of the first. The first keeps its places. -/
theorem ofTokens_joined {front moved second : List Token} {last : Token} (ended : last.kind = .eof)
    (inner : ∀ token ∈ front, token.kind ≠ .eof) (closed : Closed (second.map Token.kind))
    (same : moved.map Token.kind = second.map Token.kind)
    (clean : (ofTokens (front ++ [last])).errors = []) (clean' : (ofTokens second).errors = []) :
    (ofTokens (front ++ moved)).errors = [] ∧ ∃ rest,
      (ofTokens (front ++ moved)).program = (ofTokens (front ++ [last])).program ++ rest ∧
      rest.map Stmt.bare = (ofTokens second).program.map Stmt.bare := by
  obtain ⟨phrase, kinds, derived⟩ := derived_of_clean closed clean'
  rw [← same] at kinds closed
  have begins : (moved.map Token.kind).head? ≠ some (.keyword .elseWord) := by
    rw [kinds]
    exact derived.no_else [] (show TokenKind.eof ≠ .keyword .elseWord by simp)
  obtain ⟨value, stop, ran, whole⟩ := ofTokens_eq (closed_front inner closed)
  obtain ⟨rest, fuel, other, rfl, resumed, agree⟩ :=
    program_resumes ended inner closed begins clean ran
  have stands : (start moved).kinds = phrase ++ [.eof] :=
    (start_kinds (by simpa using closed.ne_nil)).trans kinds
  have accepted := program_accepts fuel derived #[] stands
  unfold Accepts at accepted
  rw [resumed] at accepted
  obtain ⟨bare, -, unchanged⟩ := accepted
  rw [whole]
  exact ⟨by rw [← agree, unchanged]; rfl, rest, rfl, by simpa using bare⟩

/-- What comes in front without an error changes neither the trees nor the errors of what follows,
however malformed that is. -/
theorem clean_prefix_keeps_errors {front second : List Token} {last : Token}
    (ended : last.kind = .eof) (inner : ∀ token ∈ front, token.kind ≠ .eof)
    (closed : Closed (second.map Token.kind))
    (begins : (second.map Token.kind).head? ≠ some (.keyword .elseWord))
    (clean : (ofTokens (front ++ [last])).errors = []) :
    (ofTokens (front ++ second)).program =
        (ofTokens (front ++ [last])).program ++ (ofTokens second).program ∧
      (ofTokens (front ++ second)).errors = (ofTokens second).errors := by
  obtain ⟨value, stop, ran, joined⟩ := ofTokens_eq (closed_front inner closed)
  obtain ⟨alone, stop', ran', second⟩ := ofTokens_eq closed
  obtain ⟨rest, fuel, other, rfl, resumed, same⟩ :=
    program_resumes ended inner closed begins clean ran
  obtain ⟨rfl, rfl⟩ := program_unique resumed ran'
  rw [joined, second, same]
  exact ⟨rfl, rfl⟩

theorem clean_prefix_keeps_errors_missing_name :
    let tokens := List.map fun kind => Token.mk kind "" 1 (.point 0)
    let front := tokens [.keyword .printWord, .keyword .nilWord, .symbol .semicolon]
    let second := tokens [.keyword .varWord, .symbol .semicolon, .keyword .breakWord,
      .symbol .semicolon, .eof]
    (ofTokens (front ++ second)).program =
        (ofTokens (front ++ tokens [.eof])).program ++ (ofTokens second).program ∧
      (ofTokens (front ++ second)).errors = (ofTokens second).errors ∧
      (ofTokens second).program.length = 1 ∧
      (ofTokens second).errors.map ParseError.code = [.expectedIdentifier] := by
  intro tokens front second
  have inner : ∀ token ∈ front, token.kind ≠ .eof := by decide
  have inside : .eof ∉ (second.map Token.kind).dropLast := by decide
  have closed : Closed (second.map Token.kind) := closed_append_eof inside
  have begins : (second.map Token.kind).head? ≠ some (.keyword .elseWord) := by decide
  have clean : (ofTokens (front ++ tokens [.eof])).errors = [] := by rfl
  obtain ⟨trees, errors⟩ := clean_prefix_keeps_errors (by rfl) inner closed begins clean
  exact ⟨trees, errors, by rfl, by rfl⟩

end Parsed
end Lox
