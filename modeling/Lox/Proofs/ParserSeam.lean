import Lox.Proofs.ParserGrammar

/-! Parsing tokens that end, and the same tokens with others in place of the end. What reads up to
the end without an error reads the same when more follows, as long as no `else` comes next. -/

namespace Lox

/-- The end of one input, and the tokens that stand in its place in another. -/
structure Seam where
  last : Token
  next : Token
  ahead : List Token
  ended : last.kind = .eof
  begins : next.kind ≠ .keyword .elseWord

namespace Seam
open Lox.Parser Grammar

variable {α β : Type} (seam : Seam)

/-- The same place in both inputs, and what is left before the seam. -/
structure Beside (shared : List Token) (start side : Progress) : Prop where
  inner : ∀ token ∈ shared, token.kind ≠ .eof
  ending : start.tokens = shared ++ [seam.last]
  joined : side.tokens = shared ++ seam.next :: seam.ahead
  previous : side.cursor.previous = start.cursor.previous
  errors : side.errors = start.errors

namespace Beside

variable {seam} {start side : Progress} {token : Token} {shared : List Token}

theorem current_eq (beside : seam.Beside (token :: shared) start side) :
    start.cursor.current = token ∧ side.cursor.current = token :=
  ⟨(List.cons.inj beside.ending).1, (List.cons.inj beside.joined).1⟩

theorem at_end (beside : seam.Beside [] start side) :
    start.cursor.current = seam.last ∧ side.cursor.current = seam.next :=
  ⟨(List.cons.inj beside.ending).1, (List.cons.inj beside.joined).1⟩

theorem kinds_eof (beside : seam.Beside [] start side) : start.kinds = [.eof] := by
  have tokens : start.tokens = [seam.last] := beside.ending
  have kinds : start.kinds = start.tokens.map Token.kind := rfl
  rw [kinds, tokens, List.map_singleton, seam.ended]

theorem here_eof (beside : seam.Beside [] start side) : start.here = .eof :=
  Progress.here_of_kinds beside.kinds_eof

theorem advanced (beside : seam.Beside (token :: shared) start side) :
    seam.Beside shared start.advanced side.advanced := by
  obtain ⟨here, there⟩ := beside.current_eq
  have moving : token.kind ≠ .eof := beside.inner token (by simp)
  have inner : ∀ token ∈ shared, token.kind ≠ .eof :=
    fun token member => beside.inner token (by simp [member])
  have ahead : start.cursor.ahead = shared ++ [seam.last] := (List.cons.inj beside.ending).2
  have ahead' : side.cursor.ahead = shared ++ seam.next :: seam.ahead :=
    (List.cons.inj beside.joined).2
  have inside : ¬ start.cursor.atEnd = true := by rw [Cursor.atEnd_iff, here]; exact moving
  have inside' : ¬ side.cursor.atEnd = true := by rw [Cursor.atEnd_iff, there]; exact moving
  have same := beside.errors
  cases shared with
  | nil =>
    refine ⟨inner, ?_, ?_, ?_, same⟩ <;>
      simp [Progress.tokens, Progress.advanced, Cursor.advance, inside, inside', ahead, ahead',
        here, there]
  | cons token shared =>
    refine ⟨inner, ?_, ?_, ?_, same⟩ <;>
      simp [Progress.tokens, Progress.advanced, Cursor.advance, inside, inside', ahead, ahead',
        here, there]

end Beside

/-- Where the first input ends there is a place beside it in the second. -/
theorem exists_beside_end {start : Progress} (stands : start.tokens = [seam.last]) :
    ∃ side, seam.Beside [] start side :=
  ⟨⟨⟨start.cursor.previous, seam.next, seam.ahead⟩, start.errors⟩, nofun, stands, rfl, rfl, rfl⟩

/-- Errors are only ever added. -/
def Grows (parser : Parser α) : Prop := ∀ start, match parser start with
  | .ok _ stop | .error _ stop => start.errors.size ≤ stop.errors.size

/-- Where the first run reports no error, the second gives the same and stands beside it. At the
seam itself this only holds of a run that knows it is complete: others could read on. -/
def Agree (closing : Bool) (shared : List Token) (errors : Nat) :
    EStateM.Result Halt Progress α → EStateM.Result Halt Progress α → Prop
  | .ok value stop, joined => stop.errors.size = errors → ∃ left,
      stop.tokens = left ++ [seam.last] ∧ left.length ≤ shared.length ∧
        (closing = true ∨ left ≠ [] → ∃ after, joined = .ok value after ∧
          seam.Beside left stop after)
  | .error _ _, _ => True

structure Follows (closing : Bool) (shared : List Token) (parser joined : Parser α) : Prop where
  grows : Grows parser
  agrees : ∀ start side, seam.Beside shared start side →
    seam.Agree closing shared start.errors.size (parser start) (joined side)

/-- The parser reads nothing without an error where nothing is left. -/
def Starved (parser : Parser α) : Prop := ∀ start value stop, start.kinds = [.eof] →
  parser start = .ok value stop → stop.errors.size ≠ start.errors.size

variable {seam} {closing : Bool} {shared : List Token} {parser joined : Parser α}
  {next next' : α → Parser β}

namespace Grows

theorem of_step (step : ∀ start, match parser start with
    | .ok _ stop | .error _ stop => stop.errors = start.errors) : Grows parser := by
  intro start
  have same := step start
  split <;> rename_i ran <;> rw [ran] at same <;>
    exact Nat.le_of_eq (congrArg Array.size same).symm

theorem bind (first : Grows parser) (goesOn : ∀ value, Grows (next value)) :
    Grows (parser >>= next) := by
  intro start
  have before := first start
  cases ran : parser start with
  | error halt stop =>
    rw [ran] at before
    rw [Sequencing.bind_error ran]
    exact before
  | ok value middle =>
    rw [ran] at before
    rw [Sequencing.bind_ok ran]
    have after := goesOn value middle
    split at after <;> exact Nat.le_trans before after

theorem of_reads {relation : α → List TokenKind → List TokenKind → Prop}
    (reads : Reads parser relation) : Grows parser := by
  intro start
  have read := reads start
  split <;> rename_i ran <;> rw [ran] at read
  · exact read.1
  · exact read

end Grows

namespace Agree

/-- At the seam nothing is said of a run that is not complete. -/
theorem blind {errors : Nat} {first second other : EStateM.Result Halt Progress α}
    (agree : seam.Agree false [] errors first second) : seam.Agree false [] errors first other := by
  cases first with
  | error => trivial
  | ok value stop =>
    intro clean
    obtain ⟨left, stands, short, _⟩ := agree clean
    have none : left = [] := List.length_eq_zero_iff.mp (Nat.le_zero.mp short)
    exact ⟨left, stands, short, by simp [none]⟩

theorem longer {errors : Nat} {first second : EStateM.Result Halt Progress α}
    {longer : List Token} (agree : seam.Agree closing shared errors first second)
    (bound : shared.length ≤ longer.length) : seam.Agree closing longer errors first second := by
  cases first with
  | error => trivial
  | ok value stop =>
    intro clean
    obtain ⟨left, stands, short, same⟩ := agree clean
    exact ⟨left, stands, Nat.le_trans short bound, same⟩

end Agree

theorem Starved.of_reads {relation : α → List TokenKind → List TokenKind → Prop}
    (reads : Reads parser relation)
    (some : ∀ value phrase rest, relation value phrase rest → phrase ≠ []) : Starved parser := by
  intro start value stop stands ran clean
  have read := reads start
  rw [ran] at read
  obtain ⟨closed, phrase, split, holds⟩ := read.2 (stands ▸ .last) clean
  have whole := congrArg List.length (stands.symm.trans split)
  have size := List.length_pos_iff.mpr (some value phrase _ holds)
  have rest := List.length_pos_iff.mpr closed.ne_nil
  simp only [List.length_singleton, List.length_append] at whole
  omega

theorem Starved.expect {kind : TokenKind} {message : String} {next : Token → Parser β}
    (fixed : kind.Fixed) : Starved (expect kind message >>= next) := by
  intro start value stop stands ran
  have other : start.here ≠ kind := by
    rw [Progress.here_of_kinds stands]
    exact fixed.ne_eof.symm
  rw [Sequencing.bind_error (expect_other fixed other)] at ran
  cases ran

namespace Follows

theorem pure {value : α} : seam.Follows closing shared (Pure.pure value) (Pure.pure value) where
  grows _ := Nat.le_refl _
  agrees _ side beside _ :=
    ⟨shared, beside.ending, Nat.le_refl _, fun _ => ⟨side, rfl, beside⟩⟩

theorem exhausted : seam.Follows closing shared (throw .exhausted) joined where
  grows _ := Nat.le_refl _
  agrees _ _ _ := trivial

theorem fail {code : Code} {message : String} :
    seam.Follows closing shared (failHere code message) joined where
  grows _ := Nat.le_refl _
  agrees _ _ _ := trivial

/-- A first part that is not complete at the seam needs a second that reads something. -/
private theorem bind_of {early : Bool} (first : seam.Follows early shared parser joined)
    (needs : closing = true → early = true ∨ ∀ value, Starved (next value))
    (goesOn : ∀ value left, seam.Follows closing left (next value) (next' value)) :
    seam.Follows closing shared (parser >>= next) (joined >>= next') where
  grows := first.grows.bind fun value => (goesOn value []).grows
  agrees start side beside := by
    have agree := first.agrees start side beside
    have grown := first.grows start
    cases ran : parser start with
    | error halt stop =>
      rw [Sequencing.bind_error ran]
      trivial
    | ok value middle =>
      rw [ran] at agree grown
      rw [Sequencing.bind_ok ran]
      cases last : next value middle with
      | error halt stop => trivial
      | ok result stop =>
        intro clean
        have further := (goesOn value []).grows middle
        rw [last] at further
        have between : middle.errors.size = start.errors.size :=
          Nat.le_antisymm (Nat.le_trans further (Nat.le_of_eq clean)) grown
        obtain ⟨left, stands, short, same⟩ := agree between
        have rest (away : Progress) (beside : seam.Beside left middle away) :
            seam.Agree closing left start.errors.size (next value middle) (next' value away) :=
          between ▸ (goesOn value left).agrees middle away beside
        rw [last] at rest
        -- How the joined input goes on is known unless the first part ends right at the seam.
        by_cases known : early = true ∨ left ≠ []
        · obtain ⟨after, ran', beside'⟩ := same known
          rw [Sequencing.bind_ok ran']
          exact (rest after beside').longer short clean
        · obtain ⟨incomplete, rfl⟩ : early = false ∧ left = [] := by simpa using known
          obtain ⟨away, beside'⟩ := seam.exists_beside_end stands
          cases closing with
          | false => exact (rest away beside').blind.longer short clean
          | true =>
            rcases needs rfl with both | starved
            · simp [incomplete] at both
            · have nothing := beside'.kinds_eof
              exact absurd (clean.trans between.symm) (starved value middle result stop nothing last)

theorem bind (first : seam.Follows closing shared parser joined)
    (goesOn : ∀ value left, seam.Follows closing left (next value) (next' value)) :
    seam.Follows closing shared (parser >>= next) (joined >>= next') :=
  first.bind_of .inl goesOn

/-- What reads up to the seam may be incomplete, if something has to come behind it. -/
theorem before (first : seam.Follows false shared parser joined)
    (needs : ∀ value, Starved (next value))
    (goesOn : ∀ value left, seam.Follows true left (next value) (next' value)) :
    seam.Follows true shared (parser >>= next) (joined >>= next') :=
  first.bind_of (fun _ => .inr needs) goesOn

theorem map {f : α → β} (follows : seam.Follows closing shared parser joined) :
    seam.Follows closing shared (f <$> parser) (f <$> joined) := by
  rw [map_eq_pure_bind, map_eq_pure_bind]
  exact follows.bind fun _ _ => .pure

/-- Where nothing is left, a parser that reads something fails. -/
theorem inside {relation : α → List TokenKind → List TokenKind → Prop}
    (reads : Reads parser relation)
    (some : ∀ value phrase rest, relation value phrase rest → phrase ≠ [])
    (goesOn : shared ≠ [] → seam.Follows closing shared parser joined) :
    seam.Follows closing shared parser joined := by
  by_cases left : shared = []
  · subst left
    refine ⟨.of_reads reads, fun start side beside => ?_⟩
    cases ran : parser start with
    | error => trivial
    | ok value stop =>
      have starved := Starved.of_reads reads some start value stop beside.kinds_eof ran
      exact fun clean => absurd clean starved
  · exact goesOn left

/-- A parser that only looks at the current token. -/
private theorem look {γ : Type} {test : Parser γ} {next next' : γ → Parser β} (see : Token → γ)
    (looks : ∀ start, test start = .ok (see start.cursor.current) start)
    (known : closing = true → shared ≠ [])
    (goesOn : ∀ seen, seam.Follows closing shared (next seen) (next' seen)) :
    seam.Follows closing shared (test >>= next) (test >>= next') where
  grows := (Grows.of_step fun start => by rw [looks]).bind fun value => (goesOn value).grows
  agrees start side beside := by
    rw [Sequencing.bind_ok (looks start), Sequencing.bind_ok (looks side)]
    cases shared with
    | nil =>
      cases closing with
      | false => exact ((goesOn _).agrees start side beside).blind
      | true => exact absurd rfl (known rfl)
    | cons token shared =>
      obtain ⟨here, there⟩ := beside.current_eq
      rw [here, there]
      exact (goesOn _).agrees start side beside

theorem current {next next' : Token → Parser β} (known : closing = true → shared ≠ [])
    (goesOn : ∀ token, seam.Follows closing shared (next token) (next' token)) :
    seam.Follows closing shared (current >>= next) (current >>= next') :=
  look id (fun _ => rfl) known goesOn

theorem check {kind : TokenKind} {next next' : Bool → Parser β}
    (known : closing = true → shared ≠ [])
    (goesOn : ∀ found, seam.Follows closing shared (next found) (next' found)) :
    seam.Follows closing shared (check kind >>= next) (check kind >>= next') :=
  look (fun token => token.kind.same kind) (fun _ => rfl) known goesOn

theorem atEnd {next next' : Bool → Parser β} (known : closing = true → shared ≠ [])
    (goesOn : ∀ ended, seam.Follows closing shared (next ended) (next' ended)) :
    seam.Follows closing shared (atEnd >>= next) (atEnd >>= next') :=
  look Token.isEof (fun _ => rfl) known goesOn

/-- A parser that only looks at the token before the current one. -/
theorem behind {γ : Type} {test : Parser γ} {next next' : γ → Parser β} (see : Token → γ)
    (looks : ∀ start, test start = .ok (see start.cursor.previous) start)
    (goesOn : ∀ seen, seam.Follows closing shared (next seen) (next' seen)) :
    seam.Follows closing shared (test >>= next) (test >>= next') where
  grows := (Grows.of_step fun start => by rw [looks]).bind fun value => (goesOn value).grows
  agrees start side beside := by
    rw [Sequencing.bind_ok (looks start), Sequencing.bind_ok (looks side), beside.previous]
    exact (goesOn _).agrees start side beside

theorem place {token : Token} {next next' : Place → Parser β}
    (goesOn : ∀ place, seam.Follows closing shared (next place) (next' place)) :
    seam.Follows closing shared (placeFrom token >>= next) (placeFrom token >>= next') :=
  behind (fun previous => ⟨token.line, token.span.merge previous.span⟩) (fun _ => rfl) goesOn

theorem span {first : Span} {next next' : Span → Parser β}
    (goesOn : ∀ span, seam.Follows closing shared (next span) (next' span)) :
    seam.Follows closing shared (spanFrom first >>= next) (spanFrom first >>= next') :=
  behind (fun previous => first.merge previous.span) (fun _ => rfl) goesOn

theorem advance {next next' : Unit → Parser β} (known : closing = true → shared ≠ [])
    (goesOn : ∀ left, seam.Follows closing left (next ()) (next' ())) :
    seam.Follows closing shared (advance >>= next) (advance >>= next') where
  grows := (Grows.of_step fun _ => rfl).bind fun _ => (goesOn []).grows
  agrees start side beside := by
    cases shared with
    | nil =>
      cases closing with
      | true => exact absurd rfl (known rfl)
      | false =>
        have stays : start.advanced = start := by
          have ended : start.cursor.atEnd = true := Cursor.atEnd_iff.mpr beside.here_eof
          rw [Progress.advanced, Cursor.advance, if_pos ended]
        have moved : Parser.advance start = .ok () start := congrArg (EStateM.Result.ok ()) stays
        rw [Sequencing.bind_ok moved]
        exact ((goesOn []).agrees start side beside).blind
    | cons token shared =>
      have agree := (goesOn shared).agrees _ _ beside.advanced
      exact agree.longer (Nat.le_succ _)

/-- An `else` behind the seam would be a token that the first input does not have. -/
theorem eat {kind : TokenKind} {yes no yes' no' : Parser β} (fixed : kind.Fixed)
    (known : closing = true → shared = [] → seam.next.kind ≠ kind)
    (taken : ∀ left, seam.Follows closing left yes yes')
    (other : seam.Follows closing shared no no') :
    seam.Follows closing shared (eat kind >>= fun eaten => if eaten then yes else no)
      (eat kind >>= fun eaten => if eaten then yes' else no') where
  grows := by
    refine (Grows.of_step fun start => ?_).bind fun eaten => ?_
    · by_cases stands : start.here = kind
      · rw [eat_taken fixed stands]
        rfl
      · rw [eat_other fixed stands]
    · cases eaten
      · exact other.grows
      · exact (taken []).grows
  agrees start side beside := by
    cases shared with
    | nil =>
      have stands : start.here ≠ kind := by
        rw [beside.here_eof]
        exact fixed.ne_eof.symm
      have agree := other.agrees start side beside
      rw [Sequencing.bind_ok (eat_other fixed stands)]
      cases closing with
      | false => exact agree.blind
      | true =>
        have away : side.here ≠ kind := by
          rw [Progress.here, beside.at_end.2]
          exact known rfl rfl
        rw [Sequencing.bind_ok (eat_other fixed away)]
        exact agree
    | cons token shared =>
      obtain ⟨here, there⟩ := beside.current_eq
      by_cases stands : token.kind = kind
      · have here : start.here = kind := by rw [Progress.here, here, stands]
        have there : side.here = kind := by rw [Progress.here, there, stands]
        rw [Sequencing.bind_ok (eat_taken fixed here), Sequencing.bind_ok (eat_taken fixed there)]
        have agree := (taken shared).agrees _ _ beside.advanced
        exact agree.longer (Nat.le_succ _)
      · have here : start.here ≠ kind := by rw [Progress.here, here]; exact stands
        have there : side.here ≠ kind := by rw [Progress.here, there]; exact stands
        rw [Sequencing.bind_ok (eat_other fixed here), Sequencing.bind_ok (eat_other fixed there)]
        exact other.agrees start side beside

theorem expect {kind : TokenKind} {message : String} {next next' : Token → Parser β}
    (fixed : kind.Fixed)
    (goesOn : ∀ token left, seam.Follows closing left (next token) (next' token)) :
    seam.Follows closing shared (expect kind message >>= next) (expect kind message >>= next') where
  grows := by
    refine (Grows.of_step fun start => ?_).bind fun token => (goesOn token []).grows
    by_cases stands : start.here = kind
    · rw [expect_taken fixed stands]
      rfl
    · rw [expect_other fixed stands]
  agrees start side beside := by
    by_cases stands : start.here = kind
    · cases shared with
      | nil => exact absurd (stands.symm.trans beside.here_eof) fixed.ne_eof
      | cons token shared =>
        obtain ⟨here, there⟩ := beside.current_eq
        have stands' : side.here = kind := by
          rw [← stands, Progress.here, Progress.here, here, there]
        rw [Sequencing.bind_ok (expect_taken fixed stands),
          Sequencing.bind_ok (expect_taken fixed stands'), here, there]
        exact ((goesOn token shared).agrees _ _ beside.advanced).longer (Nat.le_succ _)
    · rw [Sequencing.bind_error (expect_other fixed stands)]
      trivial

theorem expectName {message : String} {next next' : String → Parser β}
    (goesOn : ∀ name left, seam.Follows closing left (next name) (next' name)) :
    seam.Follows closing shared (expectName message >>= next) (expectName message >>= next') where
  grows := by
    refine (Grows.of_step fun start => ?_).bind fun name => (goesOn name []).grows
    by_cases named : ∃ name, start.here = .identifier name
    · obtain ⟨name, stands⟩ := named
      rw [expectName_taken stands]
      rfl
    · rw [expectName_other (not_exists.mp named)]
  agrees start side beside := by
    by_cases named : ∃ name, start.here = .identifier name
    · obtain ⟨name, stands⟩ := named
      cases shared with
      | nil => cases stands.symm.trans beside.here_eof
      | cons token shared =>
        obtain ⟨here, there⟩ := beside.current_eq
        have stands' : side.here = .identifier name := by
          rw [← stands, Progress.here, Progress.here, here, there]
        rw [Sequencing.bind_ok (expectName_taken stands),
          Sequencing.bind_ok (expectName_taken stands')]
        exact ((goesOn name shared).agrees _ _ beside.advanced).longer (Nat.le_succ _)
    · rw [Sequencing.bind_error (expectName_other (not_exists.mp named))]
      trivial

theorem choose {test : Parser Bool} {yes no yes' no' : Parser α}
    (first : seam.Follows false shared (test >>= fun holds => if holds then yes else no)
      (test >>= fun holds => if holds then yes' else no'))
    (needs : closing = true → ∀ value, Starved (next value))
    (goesOn : ∀ value left, seam.Follows closing left (next value) (next' value)) :
    seam.Follows closing shared
      (test >>= fun holds => if holds then yes >>= next else no >>= next)
      (test >>= fun holds => if holds then yes' >>= next' else no' >>= next') := by
  rw [if_then_rest, if_then_rest]
  exact first.bind_of (fun complete => .inr (needs complete)) goesOn

/-- After an error nothing is said of the second run. -/
theorem reported {report : Parser Unit} {next : Unit → Parser β} {joined next' : Parser β}
    (adds : ∀ start, ∃ error, report start = .ok () ⟨start.cursor, start.errors.push error⟩)
    (goesOn : seam.Follows closing shared (next ()) next') :
    seam.Follows closing shared (report >>= next) joined where
  grows start := by
    obtain ⟨error, added⟩ := adds start
    have further := goesOn.grows ⟨start.cursor, start.errors.push error⟩
    rw [Sequencing.bind_ok added]
    rw [Array.size_push] at further
    split at further <;> exact Nat.le_of_succ_le further
  agrees start side beside := by
    obtain ⟨error, added⟩ := adds start
    have further := goesOn.grows ⟨start.cursor, start.errors.push error⟩
    rw [Sequencing.bind_ok added]
    cases ran : next () ⟨start.cursor, start.errors.push error⟩ with
    | error => trivial
    | ok value stop =>
      rw [ran] at further
      simp only [Array.size_push] at further
      exact fun clean => absurd clean (by omega)

theorem warn {condition : Prop} [Decidable condition] {code : Code} {message : String}
    (goesOn : seam.Follows closing shared parser joined) :
    seam.Follows closing shared
      (if condition then reportHere code message >>= fun _ => parser else parser)
      (if condition then reportHere code message >>= fun _ => joined else joined) := by
  split
  · exact reported (fun _ => ⟨_, rfl⟩) goesOn
  · exact goesOn

theorem recover (follows : seam.Follows closing shared parser joined) :
    seam.Follows closing shared (recover parser) (recover joined) where
  grows start := by
    have grown := follows.grows start
    unfold Parser.recover
    cases ran : parser start with
    | ok value stop => rwa [ran] at grown
    | error halt stop =>
      rw [ran] at grown
      cases halt with
      | exhausted => exact grown
      | failed error => exact Nat.le_trans grown (by simp)
  agrees start side beside := by
    have agree := follows.agrees start side beside
    have grown := follows.grows start
    unfold Parser.recover
    cases ran : parser start with
    | ok value stop =>
      rw [ran] at agree
      intro clean
      obtain ⟨left, stands, short, same⟩ := agree clean
      refine ⟨left, stands, short, fun complete => ?_⟩
      obtain ⟨after, ran', beside'⟩ := same complete
      exact ⟨after, by rw [ran'], beside'⟩
    | error halt stop =>
      rw [ran] at grown
      cases halt with
      | exhausted => trivial
      | failed error =>
        intro clean
        have grown : start.errors.size ≤ stop.errors.size := grown
        simp only [Array.size_push] at clean
        omega

end Follows

variable (extra : Nat)

mutual

theorem expression_follows (fuel : Nat) (shared : List Token) :
    seam.Follows false shared (expression fuel) (expression (extra + fuel)) :=
  match fuel with
  | 0 => .exhausted
  | fuel + 1 => by
    refine .bind (chain_follows fuel Level.all shared) fun target left => ?_
    refine .current nofun fun equals => .eat .symbol nofun (fun left => ?_) .pure
    refine .bind (expression_follows fuel left) fun value left => ?_
    split
    · exact .pure
    · have kept : seam.Follows false left (pure value) (pure value) := .pure
      exact .reported (fun _ => ⟨_, rfl⟩) kept
termination_by structural fuel

theorem chain_follows (fuel : Nat) (levels : List Level) (shared : List Token) :
    seam.Follows false shared (chain fuel levels) (chain (extra + fuel) levels) :=
  match fuel, levels with
  | 0, _ => .exhausted
  | fuel + 1, [] => unary_follows fuel shared
  | fuel + 1, level :: tighter =>
    .bind (chain_follows fuel tighter shared) fun left _ => chainRest_follows fuel level tighter left _
termination_by structural fuel

theorem chainRest_follows (fuel : Nat) (level : Level) (tighter : List Level) (left : Expr Place)
    (shared : List Token) : seam.Follows false shared (chainRest fuel level tighter left)
      (chainRest (extra + fuel) level tighter left) :=
  match fuel with
  | 0 => .exhausted
  | fuel + 1 => by
    refine .current nofun fun token => ?_
    split
    · exact .pure
    · refine .advance nofun fun shared => .bind (chain_follows fuel tighter shared) fun right _ => ?_
      exact chainRest_follows fuel level tighter _ _
termination_by structural fuel

theorem unary_follows (fuel : Nat) (shared : List Token) :
    seam.Follows false shared (unary fuel) (unary (extra + fuel)) :=
  match fuel with
  | 0 => .exhausted
  | fuel + 1 => by
    refine .current nofun fun token => ?_
    split
    · exact .advance nofun fun shared => .bind (unary_follows fuel shared) fun operand _ => .pure
    · exact .bind (primary_follows fuel shared) fun callee _ => calls_follows fuel callee _
termination_by structural fuel

theorem calls_follows (fuel : Nat) (callee : Expr Place) (shared : List Token) :
    seam.Follows false shared (calls fuel callee) (calls (extra + fuel) callee) :=
  match fuel with
  | 0 => .exhausted
  | fuel + 1 => by
    refine .eat .symbol nofun (fun shared => ?_) .pure
    have passed : seam.Follows false shared (check (.symbol .rightParen) >>= fun found =>
        if found then pure [] else arguments fuel #[]) (check (.symbol .rightParen) >>= fun found =>
        if found then pure [] else arguments (extra + fuel) #[]) := by
      refine .check nofun fun found => ?_
      split
      · exact .pure
      · exact arguments_follows fuel #[] shared
    refine .choose passed nofun fun arguments _ => .expect .symbol fun close _ => ?_
    exact calls_follows fuel _ _
termination_by structural fuel

theorem arguments_follows (fuel : Nat) (before : Array (Expr Place)) (shared : List Token) :
    seam.Follows false shared (arguments fuel before) (arguments (extra + fuel) before) :=
  match fuel with
  | 0 => .exhausted
  | fuel + 1 => by
    refine .warn (.bind (expression_follows fuel shared) fun argument _ => ?_)
    exact .eat .symbol nofun (fun _ => arguments_follows fuel _ _) .pure
termination_by structural fuel

theorem primary_follows (fuel : Nat) (shared : List Token) :
    seam.Follows false shared (primary fuel) (primary (extra + fuel)) :=
  match fuel with
  | 0 => .exhausted
  | fuel + 1 => by
    refine .current nofun fun token => .eat .symbol nofun (fun shared => ?_) ?_
    · refine .bind (expression_follows fuel shared) fun inner _ => ?_
      exact .expect .symbol fun close _ => .pure
    · split
      · exact .advance nofun fun _ => .pure
      · exact .fail
termination_by structural fuel

end

theorem optional_follows (closing : TokenKind) (fuel : Nat) (shared : List Token) :
    seam.Follows false shared
      (check closing >>= fun found => if found then pure none else some <$> expression fuel)
      (check closing >>= fun found => if found then pure none else some <$> expression (extra + fuel)) := by
  refine .check nofun fun found => ?_
  split
  · exact .pure
  · exact .map (expression_follows extra fuel shared)

section
variable (fuel : Nat) (keyword : Token) (shared : List Token)

theorem declareRest_follows :
    seam.Follows true shared (declareRest fuel keyword) (declareRest (extra + fuel) keyword) := by
  refine .expectName fun name shared => ?_
  have initial : seam.Follows false shared
      (eat (.symbol .equal) >>= fun eaten => if eaten then some <$> expression fuel else pure none)
      (eat (.symbol .equal) >>= fun eaten =>
        if eaten then some <$> expression (extra + fuel) else pure none) :=
    .eat .symbol nofun (fun shared => .map (expression_follows extra fuel shared)) .pure
  refine .choose initial (fun _ _ => .expect .symbol) fun value _ => .expect .symbol fun _ _ => ?_
  exact .place fun _ => .pure

theorem printRest_follows :
    seam.Follows true shared (printRest fuel keyword) (printRest (extra + fuel) keyword) := by
  refine .before (expression_follows extra fuel shared) (fun _ => .expect .symbol) fun value _ => ?_
  exact .expect .symbol fun _ _ => .place fun _ => .pure

theorem returnRest_follows :
    seam.Follows true shared (returnRest fuel keyword) (returnRest (extra + fuel) keyword) := by
  refine .choose (optional_follows extra _ fuel shared) (fun _ _ => .expect .symbol) fun value _ => ?_
  exact .expect .symbol fun _ _ => .place fun _ => .pure

theorem breakRest_follows : seam.Follows true shared (breakRest keyword) (breakRest keyword) :=
  .expect .symbol fun _ _ => .place fun _ => .pure

theorem continueRest_follows :
    seam.Follows true shared (continueRest keyword) (continueRest keyword) :=
  .expect .symbol fun _ _ => .place fun _ => .pure

theorem expressionStatement_follows :
    seam.Follows true shared (expressionStatement fuel) (expressionStatement (extra + fuel)) := by
  refine .before (expression_follows extra fuel shared) (fun _ => .expect .symbol) fun expr _ => ?_
  exact .expect .symbol fun _ _ => .span fun _ => .pure

theorem firstClause_follows :
    seam.Follows true shared (firstClause fuel) (firstClause (extra + fuel)) := by
  refine .inside (firstClause_reads fuel) (fun _ _ _ => FirstClause.ne_nil) fun inside => ?_
  refine .current (fun _ => inside) fun token => ?_
  refine .eat .symbol (fun _ nothing => absurd nothing inside) (fun _ => .pure) ?_
  refine .eat .keyword (fun _ nothing => absurd nothing inside) (fun shared => ?_) ?_
  · exact .map (declareRest_follows extra fuel token shared)
  · exact .map (expressionStatement_follows extra fuel shared)

theorem conditionClause_follows :
    seam.Follows true shared (conditionClause fuel) (conditionClause (extra + fuel)) := by
  refine .choose (optional_follows extra _ fuel shared) (fun _ _ => .expect .symbol) fun _ _ => ?_
  exact .expect .symbol fun _ _ => .pure

theorem lastClause_follows :
    seam.Follows true shared (lastClause fuel) (lastClause (extra + fuel)) := by
  refine .choose (optional_follows extra _ fuel shared) (fun _ _ => .expect .symbol) fun _ _ => ?_
  exact .expect .symbol fun _ _ => .pure

end

theorem parameters_follows (fuel : Nat) (before : Array String) (shared : List Token) :
    seam.Follows false shared (parameters fuel before) (parameters (extra + fuel) before) :=
  match fuel with
  | 0 => .exhausted
  | fuel + 1 => by
    refine .warn (.expectName fun name shared => ?_)
    exact .eat .symbol nofun (fun shared => parameters_follows fuel _ shared) .pure
termination_by structural fuel

mutual

theorem declaration_follows (fuel : Nat) (shared : List Token) :
    seam.Follows true shared (declaration fuel) (declaration (extra + fuel)) :=
  match fuel with
  | 0 => .exhausted
  | fuel + 1 => by
    refine .inside (declaration_reads (fuel + 1)) ?_ fun inside => ?_
    · intro _ phrase _ read
      obtain ⟨_, _, derived⟩ := read
      exact derived.begins.ne_nil
    refine .recover (.current (fun _ => inside) fun keyword => ?_)
    refine .eat .keyword (fun _ nothing => absurd nothing inside) (fun shared => ?_) ?_
    · exact declareRest_follows extra fuel keyword shared
    refine .eat .keyword (fun _ nothing => absurd nothing inside) (fun shared => ?_) ?_
    · exact functionRest_follows fuel keyword shared
    · exact statement_follows fuel shared
termination_by structural fuel

theorem functionRest_follows (fuel : Nat) (keyword : Token) (shared : List Token) :
    seam.Follows true shared (functionRest fuel keyword) (functionRest (extra + fuel) keyword) :=
  match fuel with
  | 0 => .exhausted
  | fuel + 1 => by
    refine .expectName fun name _ => .expect .symbol fun _ shared => ?_
    have named : seam.Follows false shared
        (check (.symbol .rightParen) >>= fun found => if found then pure [] else parameters fuel #[])
        (check (.symbol .rightParen) >>= fun found =>
          if found then pure [] else parameters (extra + fuel) #[]) := by
      refine .check nofun fun found => ?_
      split
      · exact .pure
      · exact parameters_follows extra fuel #[] shared
    refine .choose named (fun _ _ => .expect .symbol) fun params _ => ?_
    refine .expect .symbol fun _ _ => .expect .symbol fun _ shared => ?_
    exact .bind (blockRest_follows fuel #[] shared) fun body _ => .place fun _ => .pure
termination_by structural fuel

theorem statement_follows (fuel : Nat) (shared : List Token) :
    seam.Follows true shared (statement fuel) (statement (extra + fuel)) :=
  match fuel with
  | 0 => .exhausted
  | fuel + 1 => by
    refine .inside (statement_reads (fuel + 1)) ?_ fun inside => ?_
    · intro _ phrase _ read
      obtain ⟨_, derived, _⟩ := read
      exact derived.begins.ne_nil
    refine .current (fun _ => inside) fun keyword => ?_
    split <;> try refine .advance (fun _ => inside) fun shared => ?_
    · exact forRest_follows fuel keyword shared
    · exact ifRest_follows fuel keyword shared
    · exact printRest_follows extra fuel keyword shared
    · exact returnRest_follows extra fuel keyword shared
    · exact whileRest_follows fuel keyword shared
    · exact breakRest_follows keyword shared
    · exact continueRest_follows keyword shared
    · exact .bind (blockRest_follows fuel #[] shared) fun body _ => .place fun _ => .pure
    · exact expressionStatement_follows extra fuel shared
termination_by structural fuel

theorem blockRest_follows (fuel : Nat) (before : Array (Stmt Place)) (shared : List Token) :
    seam.Follows true shared (blockRest fuel before) (blockRest (extra + fuel) before) :=
  match fuel with
  | 0 => .exhausted
  | fuel + 1 => by
    refine .inside (blockRest_reads (fuel + 1) before) ?_ fun inside => ?_
    · intro _ phrase _ read
      obtain ⟨_, front, _, rfl, _⟩ := read
      simp
    refine .check (fun _ => inside) fun closing => .atEnd (fun _ => inside) fun ended => ?_
    split
    · exact .expect .symbol fun _ _ => .pure
    · refine .bind (declaration_follows fuel shared) fun found shared => ?_
      cases found with
      | none => exact blockRest_follows fuel before shared
      | some stmt => exact blockRest_follows fuel _ shared
termination_by structural fuel

theorem ifRest_follows (fuel : Nat) (keyword : Token) (shared : List Token) :
    seam.Follows true shared (ifRest fuel keyword) (ifRest (extra + fuel) keyword) :=
  match fuel with
  | 0 => .exhausted
  | fuel + 1 => by
    refine .expect .symbol fun _ shared => ?_
    refine .before (expression_follows extra fuel shared) (fun _ => .expect .symbol) fun _ _ => ?_
    refine .expect .symbol fun _ shared => .bind (statement_follows fuel shared) fun body _ => ?_
    -- Here a conditional could go on behind the seam.
    refine .eat .keyword (fun _ _ => seam.begins) (fun shared => ?_) (.place fun _ => .pure)
    exact .bind (statement_follows fuel shared) fun other _ => .place fun _ => .pure
termination_by structural fuel

theorem whileRest_follows (fuel : Nat) (keyword : Token) (shared : List Token) :
    seam.Follows true shared (whileRest fuel keyword) (whileRest (extra + fuel) keyword) :=
  match fuel with
  | 0 => .exhausted
  | fuel + 1 => by
    refine .expect .symbol fun _ shared => ?_
    refine .before (expression_follows extra fuel shared) (fun _ => .expect .symbol) fun _ _ => ?_
    refine .expect .symbol fun _ shared => .bind (statement_follows fuel shared) fun body _ => ?_
    exact .place fun _ => .pure
termination_by structural fuel

theorem forRest_follows (fuel : Nat) (keyword : Token) (shared : List Token) :
    seam.Follows true shared (forRest fuel keyword) (forRest (extra + fuel) keyword) :=
  match fuel with
  | 0 => .exhausted
  | fuel + 1 => by
    refine .expect .symbol fun _ shared => ?_
    refine .bind (firstClause_follows extra fuel shared) fun first shared => ?_
    refine .bind (conditionClause_follows extra fuel shared) fun condition shared => ?_
    refine .bind (lastClause_follows extra fuel shared) fun last shared => ?_
    refine .bind (statement_follows fuel shared) fun body _ => .span fun _ => ?_
    exact .place fun _ => .pure
termination_by structural fuel

end

/-- Where the first input has been read, the second goes on with what was read before. -/
theorem program_follows (fuel : Nat) (before : Array (Stmt Place)) {start side stop : Progress}
    {shared : List Token} {value : Program} (beside : seam.Beside shared start side)
    (ran : program fuel before start = .ok value stop)
    (clean : stop.errors.size = start.errors.size) : ∃ fuel' after, seam.Beside [] stop after ∧
      program (extra + fuel) before side = program fuel' value.toArray after := by
  induction fuel generalizing before start side shared with
  | zero => cases ran
  | succ fuel ih =>
    cases shared with
    | nil =>
      rw [program_ended beside.here_eof] at ran
      cases ran
      exact ⟨extra + (fuel + 1), side, beside, rfl⟩
    | cons token shared =>
      obtain ⟨here, there⟩ := beside.current_eq
      have moving : token.kind ≠ .eof := beside.inner token (by simp)
      have inside : start.here ≠ .eof := by rw [Progress.here, here]; exact moving
      have inside' : side.here ≠ .eof := by rw [Progress.here, there]; exact moving
      have follows : seam.Follows true (token :: shared) (declaration fuel)
          (declaration (extra + fuel)) := declaration_follows extra fuel _
      have grown := follows.grows start
      have agree := follows.agrees start side beside
      rw [← Nat.add_assoc, program_inside inside']
      rcases program_cases ran with ⟨ended, -⟩ | ⟨-, found, middle, declared, ran⟩
      · exact absurd ended inside
      rw [declared] at grown agree
      have grown' := Grows.of_reads (program_reads fuel (before ++ found.toArray)) middle
      rw [ran] at grown'
      have between : middle.errors.size = start.errors.size :=
        Nat.le_antisymm (Nat.le_trans grown' (Nat.le_of_eq clean)) grown
      obtain ⟨left, stands, short, same⟩ := agree between
      obtain ⟨after, declared', beside'⟩ := same (.inl rfl)
      obtain ⟨fuel', last, ending, goesOn⟩ := ih _ beside' ran (clean.trans between.symm)
      exact ⟨fuel', last, ending, by rw [Sequencing.bind_ok declared', goesOn]⟩

end Seam

namespace Parsed
open Lox.Parser Grammar

theorem derived_of_clean {tokens : List Token} (closed : Closed (tokens.map Token.kind))
    (clean : (ofTokens tokens).errors = []) : ∃ phrase, tokens.map Token.kind = phrase ++ [.eof] ∧
      Declarations phrase ((ofTokens tokens).program.map Stmt.bare) := by
  have stands : (start tokens).kinds = tokens.map Token.kind :=
    start_kinds (by simpa using closed.ne_nil)
  obtain ⟨value, stop, ran, same⟩ := ofTokens_eq closed
  rw [same] at clean ⊢
  have read := program_reads (budget tokens) #[] (start tokens)
  rw [ran] at read
  obtain ⟨closed', phrase, split, stmts, rfl, ended, derived⟩ :=
    read.2 (stands ▸ closed) (congrArg List.length clean)
  obtain ⟨rest, last⟩ : ∃ rest, stop.kinds = .eof :: rest := List.head?_eq_some_iff.mp ended
  rw [last] at closed' split
  rw [closed'.eof_last] at split
  exact ⟨phrase, stands.symm.trans split, by simpa using derived⟩

theorem clean_of_derived {tokens : List Token} {phrase : List TokenKind} {trees : List (Stmt Unit)}
    (closed : Closed (tokens.map Token.kind)) (kinds : tokens.map Token.kind = phrase ++ [.eof])
    (derived : Declarations phrase trees) :
    (ofTokens tokens).errors = [] ∧ (ofTokens tokens).program.map Stmt.bare = trees := by
  have stands : (start tokens).kinds = tokens.map Token.kind :=
    start_kinds (by simpa using closed.ne_nil)
  obtain ⟨value, stop, ran, same⟩ := ofTokens_eq closed
  have accepted := program_accepts (budget tokens) derived #[] (stands.trans kinds)
  unfold Accepts at accepted
  rw [ran] at accepted
  rw [same]
  obtain ⟨bare, -, clean⟩ := accepted
  exact ⟨by rw [clean]; rfl, by simpa using bare⟩

end Parsed
end Lox
