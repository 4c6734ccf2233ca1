import Mathlib.Logic.Relation
import Lox.Proofs.ParserExactness

/-! What parsers are made of. Whatever a parser does, it does in steps: it reads a token, it reports
an error and goes on, or it reports an error and skips to the next boundary. No step goes backwards
or past the end of the input, so no parser does, whether it ends, fails or runs out of its budget. -/

namespace Lox

/-- The codes of errors that break a declaration off. Parsing goes on behind all others. -/
def Code.breaks : Code → Bool
  | .expectedToken | .expectedExpression | .expectedIdentifier => true
  | _ => false

namespace Cursor

/-- The cursor stands at an index of a list of tokens. In front of the first token it remembers that
token itself. -/
structure At (tokens : List Token) (index : Nat) (cursor : Cursor) : Prop where
  ahead : tokens.drop index = cursor.current :: cursor.ahead
  behind : tokens[index - 1]? = some cursor.previous

theorem ofTokens_at {tokens : List Token} (some : tokens ≠ []) : (ofTokens tokens).At tokens 0 := by
  cases tokens with
  | nil => exact absurd rfl some
  | cons first rest => exact ⟨rfl, rfl⟩

namespace At

variable {tokens : List Token} {index : Nat} {cursor : Cursor}

theorem kinds (stands : cursor.At tokens index) :
    (tokens.map Token.kind).drop index = cursor.kinds := by
  rw [← List.map_drop, stands.ahead]
  rfl

theorem left (stands : cursor.At tokens index) : cursor.kinds.length + index = tokens.length := by
  have sizes := congrArg List.length stands.ahead
  simp only [List.length_drop, List.length_cons] at sizes
  simp only [Cursor.kinds, List.length_cons, List.length_map]
  omega

theorem closed (stands : cursor.At tokens index) (closed : Closed (tokens.map Token.kind)) :
    Closed cursor.kinds := by
  rw [← List.take_append_drop index (tokens.map Token.kind), stands.kinds] at closed
  exact closed.of_append (by simp [Cursor.kinds])

theorem at_end (stands : cursor.At tokens index) (closed : Closed (tokens.map Token.kind))
    (ended : cursor.current.kind = .eof) : tokens.length - 1 = index := by
  have closed := stands.closed closed
  rw [Cursor.kinds, ended] at closed
  have sizes := stands.left
  rw [Cursor.kinds, closed.eof_last] at sizes
  simp only [List.length_cons, List.length_nil] at sizes
  omega

/-- A step over a token other than the last. -/
theorem next {previous current next : Token} {ahead : List Token}
    (stands : At tokens index ⟨previous, current, next :: ahead⟩) :
    At tokens (index + 1) ⟨current, next, ahead⟩ := by
  have split : tokens.drop index = current :: next :: ahead := stands.ahead
  constructor
  · rw [← List.tail_drop, split]
    rfl
  · rw [Nat.add_sub_cancel, ← List.head?_drop, split]
    rfl

theorem advance (stands : cursor.At tokens index) :
    ∃ later, index ≤ later ∧ cursor.advance.At tokens later := by
  obtain ⟨previous, current, ahead⟩ := cursor
  unfold Cursor.advance
  split
  · exact ⟨index, Nat.le_refl _, stands⟩
  · cases ahead with
    | nil => exact ⟨index, Nat.le_refl _, stands⟩
    | cons => exact ⟨index + 1, Nat.le_succ _, stands.next⟩

private theorem skip (previous current : Token) (ahead : List Token) :
    ∀ index, At tokens index ⟨previous, current, ahead⟩ →
      ∃ later, index ≤ later ∧ (Cursor.skip previous current ahead).At tokens later := by
  fun_induction Cursor.skip previous current ahead with
  | case1 => exact fun index stands => ⟨index, Nat.le_refl _, stands⟩
  | case2 => exact fun index stands => ⟨index, Nat.le_refl _, stands⟩
  | case3 previous current next ahead cursor inside ih =>
    intro index stands
    obtain ⟨later, further, stands⟩ := ih (index + 1) stands.next
    exact ⟨later, Nat.le_of_succ_le further, stands⟩

theorem synchronize (stands : cursor.At tokens index) :
    ∃ later, index ≤ later ∧ cursor.synchronize.At tokens later := by
  obtain ⟨middle, further, stands⟩ := stands.advance
  obtain ⟨later, further', stands⟩ := skip _ _ _ middle stands
  exact ⟨later, Nat.le_trans further further', stands⟩

end At
end Cursor

namespace Progress

/-- The errors so far that broke a declaration off. -/
def broken (progress : Progress) : List ParseError :=
  progress.errors.toList.filter fun error => error.code.breaks

theorem broken_push (cursor : Cursor) (errors : Array ParseError) (error : ParseError) :
    (Progress.mk cursor (errors.push error)).broken =
      (Progress.mk cursor errors).broken ++ if error.code.breaks then [error] else [] := by
  simp only [broken, Array.toList_push, List.filter_append, List.filter_cons, List.filter_nil]

/-- What a parser does at once. Only parsers that catch errors skip tokens. -/
inductive Step (catches : Bool) : Progress → Progress → Prop where
  | read (progress : Progress) : Step catches progress progress.advanced
  | warn (cursor : Cursor) (errors : Array ParseError) {error : ParseError}
      (goesOn : error.code.breaks = false) :
      Step catches ⟨cursor, errors⟩ ⟨cursor, errors.push error⟩
  | skip (caught : catches = true) (cursor : Cursor) (errors : Array ParseError)
      {error : ParseError} (broke : error.code.breaks = true) :
      Step catches ⟨cursor, errors⟩ ⟨cursor.synchronize, errors.push error⟩

abbrev Steps (catches : Bool) : Progress → Progress → Prop := Relation.ReflTransGen (Step catches)

variable {start stop : Progress} {catches : Bool}

/-- A step neither goes backwards nor past the last token. -/
theorem Step.onwards {tokens : List Token} {index : Nat} (step : Step catches start stop)
    (stands : start.cursor.At tokens index) :
    ∃ later, index ≤ later ∧ stop.cursor.At tokens later := by
  cases step with
  | read => exact stands.advance
  | warn => exact ⟨index, Nat.le_refl _, stands⟩
  | skip => exact stands.synchronize

namespace Steps

theorem onwards {tokens : List Token} {index : Nat} (steps : Steps catches start stop)
    (stands : start.cursor.At tokens index) :
    ∃ later, index ≤ later ∧ stop.cursor.At tokens later := by
  induction steps with
  | refl => exact ⟨index, Nat.le_refl _, stands⟩
  | tail _ step ih =>
    obtain ⟨middle, further, stands⟩ := ih
    obtain ⟨later, further', stands⟩ := step.onwards stands
    exact ⟨later, Nat.le_trans further further', stands⟩

theorem suffix (steps : Steps catches start stop) : stop.tokens <:+ start.tokens := by
  induction steps with
  | refl => exact List.suffix_refl _
  | tail _ step ih =>
    refine List.IsSuffix.trans ?_ ih
    cases step with
    | read => exact Cursor.advance_suffix _
    | warn => exact List.suffix_refl _
    | skip => exact Cursor.synchronize_suffix _

theorem closed (steps : Steps catches start stop) (closed : Closed start.kinds) :
    Closed stop.kinds ∧ stop.left ≤ start.left := by
  obtain ⟨front, split⟩ := steps.suffix
  have kinds : start.kinds = front.map Token.kind ++ stop.kinds := by
    rw [start.kinds_eq, ← split, List.map_append, stop.kinds_eq]
  rw [kinds] at closed
  refine ⟨closed.of_append (by simp [kinds_eq, tokens]), ?_⟩
  rw [left, left, kinds, List.length_append]
  exact Nat.le_add_left _ _

/-- Without catching errors, a parser reports none that breaks a declaration off. -/
theorem unbroken (steps : Steps false start stop) : stop.broken = start.broken := by
  induction steps with
  | refl => rfl
  | tail _ step ih =>
    rw [← ih]
    cases step with
    | read => rfl
    | warn cursor errors goesOn => simp [broken_push, goesOn]
    | skip caught => cases caught

end Steps
end Progress

namespace Parser
open Progress

variable {α β : Type} {parser : Parser α} {next : α → Parser β} {start middle stop : Progress}
  {catches : Bool}

/-- The parser takes steps only. An error it fails with breaks a declaration off. -/
def Walks (catches : Bool) (parser : Parser α) (start : Progress) : Prop :=
  match parser start with
  | .ok _ stop => Steps catches start stop
  | .error halt stop =>
    Steps catches start stop ∧ ∀ error, halt = .failed error → error.code.breaks = true

namespace Walks

theorem of_ok {value : α} (ran : parser start = .ok value stop) (steps : Steps catches start stop) :
    Walks catches parser start := by
  simpa only [Walks, ran] using steps

theorem of_failed {error : ParseError} (ran : parser start = .error (.failed error) start)
    (breaks : error.code.breaks = true) : Walks catches parser start := by
  simp only [Walks, ran]
  refine ⟨.refl, fun other same => ?_⟩
  cases same
  exact breaks

theorem exhausted : Walks catches (throw .exhausted : Parser α) start := ⟨.refl, nofun⟩

theorem bind (first : Walks catches parser start)
    (goesOn : ∀ value middle, parser start = .ok value middle → Walks catches (next value) middle) :
    Walks catches (parser >>= next) start := by
  unfold Walks at first
  split at first
  next value middle ran =>
    have rest := goesOn value middle ran
    unfold Walks at rest ⊢
    rw [Sequencing.bind_ok ran]
    split <;> rename_i done <;> rw [done] at rest
    · exact first.trans rest
    · exact ⟨first.trans rest.1, rest.2⟩
  next ran =>
    unfold Walks
    rw [Sequencing.bind_error ran]
    exact first

theorem eat {kind : TokenKind} : Walks catches (eat kind) start := by
  by_cases found : start.cursor.check kind = true
  · have ran : Parser.eat kind start = .ok true start.advanced := by
      simp only [Parser.eat, Cursor.eat, if_pos found, Progress.advanced]
    exact of_ok ran (.single (.read start))
  · have ran : Parser.eat kind start = .ok false start := by
      simp only [Parser.eat, Cursor.eat, if_neg found]
    exact of_ok ran .refl

theorem expect {kind : TokenKind} {message : String} :
    Walks catches (expect kind message) start := by
  by_cases found : start.cursor.check kind = true
  · have ran : Parser.expect kind message start = .ok start.cursor.current start.advanced := by
      simp only [Parser.expect, attempt, Cursor.expect, if_pos found, Progress.advanced]
    exact of_ok ran (.single (.read start))
  · have ran : Parser.expect kind message start =
        .error (.failed (start.cursor.errorHere .expectedToken message)) start := by
      simp only [Parser.expect, attempt, Cursor.expect, if_neg found]
    exact of_failed ran rfl

theorem expectName {message : String} : Walks catches (expectName message) start := by
  by_cases named : ∃ name, start.here = .identifier name
  · obtain ⟨name, stands⟩ := named
    exact of_ok (expectName_taken stands) (.single (.read start))
  · exact of_failed (expectName_other (not_exists.mp named)) rfl

theorem recover (caught : catches = true) (body : Walks catches parser start) :
    Walks catches (recover parser) start := by
  unfold Walks Parser.recover at *
  split at body <;> rename_i ran <;> simp only [ran]
  · exact body
  · rename_i halt stop
    cases halt with
    | exhausted => exact body
    | failed error => exact body.1.tail (.skip caught stop.cursor stop.errors (body.2 error rfl))

end Walks

/-- Parsers that are made of steps. -/
inductive Made (catches : Bool) : {α : Type} → Parser α → Prop where
  | pure {α : Type} (value : α) : Made catches (Pure.pure value)
  | exhausted {α : Type} : Made catches (throw .exhausted : Parser α)
  | bind {α β : Type} {parser : Parser α} {next : α → Parser β} (first : Made catches parser)
      (goesOn : ∀ value, Made catches (next value)) : Made catches (parser >>= next)
  | current : Made catches current
  | check (kind : TokenKind) : Made catches (check kind)
  | atEnd : Made catches atEnd
  | spanFrom (span : Span) : Made catches (spanFrom span)
  | placeFrom (token : Token) : Made catches (placeFrom token)
  | advance : Made catches advance
  | eat (kind : TokenKind) : Made catches (eat kind)
  | expect (kind : TokenKind) (message : String) : Made catches (expect kind message)
  | expectName (message : String) : Made catches (expectName message)
  | failHere {α : Type} {code : Code} (message : String) (breaks : code.breaks = true) :
      Made catches (failHere code message : Parser α)
  | report {error : ParseError} (goesOn : error.code.breaks = false) : Made catches (report error)
  | reportHere {code : Code} (message : String) (goesOn : code.breaks = false) :
      Made catches (reportHere code message)
  | recover {α : Type} {parser : Parser α} (caught : catches = true) (body : Made catches parser) :
      Made catches (recover parser)

namespace Made

/-- Whatever such a parser does, it does in steps. -/
theorem walks (made : Made catches parser) (start : Progress) : Walks catches parser start := by
  induction made generalizing start with
  | pure => exact .of_ok rfl .refl
  | exhausted => exact .exhausted
  | bind _ _ first rest => exact (first start).bind fun value middle _ => rest value middle
  | current => exact .of_ok rfl .refl
  | check => exact .of_ok rfl .refl
  | atEnd => exact .of_ok rfl .refl
  | spanFrom => exact .of_ok rfl .refl
  | placeFrom => exact .of_ok rfl .refl
  | advance => exact .of_ok rfl (.single (.read start))
  | eat => exact .eat
  | expect => exact .expect
  | expectName => exact .expectName
  | failHere _ breaks => exact .of_failed rfl breaks
  | report goesOn => exact .of_ok rfl (.single (.warn _ _ goesOn))
  | reportHere _ goesOn => exact .of_ok rfl (.single (.warn _ _ goesOn))
  | recover caught _ body => exact .recover caught (body start)

theorem onwards (made : Made catches parser) (closed : Closed start.kinds) {value : α}
    (ran : parser start = .ok value stop) : Closed stop.kinds ∧ stop.left ≤ start.left := by
  have walks := made.walks start
  rw [Walks, ran] at walks
  exact walks.closed closed

/-- In whatever way a parser stops, the cursor has not gone back, nor past the last token. -/
theorem forward (made : Made catches parser) {tokens : List Token} {first : Nat}
    (stands : start.cursor.At tokens first) :
    match parser start with
    | .ok _ stop => ∃ last, first ≤ last ∧ stop.cursor.At tokens last
    | .error _ stop => ∃ last, first ≤ last ∧ stop.cursor.At tokens last := by
  have walks := made.walks start
  unfold Walks at walks
  split <;> rename_i ran <;> rw [ran] at walks
  · exact walks.onwards stands
  · exact walks.1.onwards stands

theorem choice {condition : Prop} [Decidable condition] {yes no : Parser α} (taken : Made catches yes)
    (other : Made catches no) : Made catches (if condition then yes else no) := by
  split
  · exact taken
  · exact other

theorem map {f : α → β} (made : Made catches parser) : Made catches (f <$> parser) := by
  rw [map_eq_pure_bind]
  exact made.bind fun _ => .pure _

theorem choose {test : Parser Bool} {yes no : Parser α}
    (first : Made catches (test >>= fun holds => if holds then yes else no))
    (goesOn : ∀ value, Made catches (next value)) :
    Made catches (test >>= fun holds => if holds then yes >>= next else no >>= next) := by
  rw [if_then_rest]
  exact first.bind goesOn

theorem warning {condition : Prop} [Decidable condition] {code : Code} (message : String)
    (goesOn : code.breaks = false) (made : Made catches parser) :
    Made catches (if condition then Parser.reportHere code message >>= fun _ => parser else parser) :=
  .choice ((Made.reportHere message goesOn).bind fun _ => made) made

end Made

section
variable (catches : Bool)

mutual

theorem expression_made : (fuel : Nat) → Made catches (expression fuel)
  | 0 => .exhausted
  | fuel + 1 => by
    refine (chain_made fuel Level.all).bind fun target => Made.current.bind fun equals => ?_
    refine (Made.eat _).bind fun eaten => .choice ?_ (.pure _)
    refine (expression_made fuel).bind fun value => ?_
    split
    · exact .pure _
    · exact (Made.report rfl).bind fun _ => .pure _

theorem chain_made : (fuel : Nat) → (levels : List Level) → Made catches (chain fuel levels)
  | 0, _ => .exhausted
  | fuel + 1, [] => unary_made fuel
  | fuel + 1, level :: tighter =>
    (chain_made fuel tighter).bind fun left => chainRest_made fuel level tighter left

theorem chainRest_made : (fuel : Nat) → (level : Level) → (tighter : List Level) →
    (left : Expr Place) → Made catches (chainRest fuel level tighter left)
  | 0, _, _, _ => .exhausted
  | fuel + 1, level, tighter, left => by
    refine Made.current.bind fun token => ?_
    split
    · exact .pure _
    · refine Made.advance.bind fun _ => (chain_made fuel tighter).bind fun right => ?_
      exact chainRest_made fuel level tighter _

theorem unary_made : (fuel : Nat) → Made catches (unary fuel)
  | 0 => .exhausted
  | fuel + 1 => by
    refine Made.current.bind fun token => ?_
    split
    · exact Made.advance.bind fun _ => (unary_made fuel).bind fun _ => .pure _
    · exact (primary_made fuel).bind fun callee => calls_made fuel callee

theorem calls_made : (fuel : Nat) → (callee : Expr Place) → Made catches (calls fuel callee)
  | 0, _ => .exhausted
  | fuel + 1, callee => by
    refine (Made.eat _).bind fun eaten => .choice ?_ (.pure _)
    have passed : Made catches (check (.symbol .rightParen) >>= fun found =>
        if found then Pure.pure [] else arguments fuel #[]) :=
      (Made.check _).bind fun _ => .choice (.pure _) (arguments_made fuel #[])
    refine .choose passed fun arguments => (Made.expect _ _).bind fun close => ?_
    exact calls_made fuel _

theorem arguments_made : (fuel : Nat) → (before : Array (Expr Place)) →
    Made catches (arguments fuel before)
  | 0, _ => .exhausted
  | fuel + 1, before => by
    refine .warning _ rfl ((expression_made fuel).bind fun argument => ?_)
    exact (Made.eat _).bind fun _ => .choice (arguments_made fuel _) (.pure _)

theorem primary_made : (fuel : Nat) → Made catches (primary fuel)
  | 0 => .exhausted
  | fuel + 1 => by
    refine Made.current.bind fun token => (Made.eat _).bind fun eaten => .choice ?_ ?_
    · exact (expression_made fuel).bind fun inner => (Made.expect _ _).bind fun close => .pure _
    · split
      · exact Made.advance.bind fun _ => .pure _
      · exact .failHere _ rfl

end

theorem optional_made {closing : TokenKind} (fuel : Nat) :
    Made catches (check closing >>= fun found =>
      if found then pure none else some <$> expression fuel) :=
  (Made.check _).bind fun _ => .choice (.pure _) (expression_made catches fuel).map

theorem breakRest_made (keyword : Token) : Made catches (breakRest keyword) :=
  (Made.expect _ _).bind fun _ => (Made.placeFrom _).bind fun _ => .pure _

theorem continueRest_made (keyword : Token) : Made catches (continueRest keyword) :=
  (Made.expect _ _).bind fun _ => (Made.placeFrom _).bind fun _ => .pure _

variable (fuel : Nat) (keyword : Token)

theorem declareRest_made : Made catches (declareRest fuel keyword) := by
  refine (Made.expectName _).bind fun name => ?_
  have initial : Made catches (eat (.symbol .equal) >>= fun eaten =>
      if eaten then some <$> expression fuel else pure none) :=
    (Made.eat _).bind fun _ => .choice (expression_made catches fuel).map (.pure _)
  refine .choose initial fun value => (Made.expect _ _).bind fun _ => ?_
  exact (Made.placeFrom _).bind fun _ => .pure _

theorem printRest_made : Made catches (printRest fuel keyword) :=
  (expression_made catches fuel).bind fun _ => (Made.expect _ _).bind fun _ =>
    (Made.placeFrom _).bind fun _ => .pure _

theorem returnRest_made : Made catches (returnRest fuel keyword) :=
  .choose (optional_made catches fuel) fun _ => (Made.expect _ _).bind fun _ =>
    (Made.placeFrom _).bind fun _ => .pure _

theorem expressionStatement_made : Made catches (expressionStatement fuel) :=
  (expression_made catches fuel).bind fun _ => (Made.expect _ _).bind fun _ =>
    (Made.spanFrom _).bind fun _ => .pure _

theorem firstClause_made : Made catches (firstClause fuel) := by
  refine Made.current.bind fun token => (Made.eat _).bind fun _ => .choice (.pure _) ?_
  refine (Made.eat _).bind fun _ => .choice ?_ ?_
  · exact (declareRest_made catches fuel token).map
  · exact (expressionStatement_made catches fuel).map

theorem conditionClause_made : Made catches (conditionClause fuel) :=
  .choose (optional_made catches fuel) fun _ => (Made.expect _ _).bind fun _ => .pure _

theorem lastClause_made : Made catches (lastClause fuel) :=
  .choose (optional_made catches fuel) fun _ => (Made.expect _ _).bind fun _ => .pure _

theorem parameters_made : (fuel : Nat) → (before : Array String) → Made catches (parameters fuel before)
  | 0, _ => .exhausted
  | fuel + 1, before => by
    refine .warning _ rfl ((Made.expectName _).bind fun name => ?_)
    exact (Made.eat _).bind fun _ => .choice (parameters_made fuel _) (.pure _)

theorem parameterList_made : Made catches (check (.symbol .rightParen) >>= fun found =>
    if found then pure [] else parameters fuel #[]) :=
  (Made.check _).bind fun _ => .choice (.pure _) (parameters_made catches fuel #[])

end

mutual

theorem declaration_made : (fuel : Nat) → Made true (declaration fuel)
  | 0 => .exhausted
  | fuel + 1 => by
    refine .recover rfl (Made.current.bind fun keyword => ?_)
    refine (Made.eat _).bind fun _ => .choice (declareRest_made true fuel keyword) ?_
    exact (Made.eat _).bind fun _ => .choice (functionRest_made fuel keyword) (statement_made fuel)

theorem functionRest_made : (fuel : Nat) → (keyword : Token) → Made true (functionRest fuel keyword)
  | 0, _ => .exhausted
  | fuel + 1, keyword => by
    refine (Made.expectName _).bind fun name => (Made.expect _ _).bind fun _ => ?_
    refine .choose (parameterList_made true fuel) fun params => ?_
    refine (Made.expect _ _).bind fun _ => (Made.expect _ _).bind fun _ => ?_
    exact (blockRest_made fuel #[]).bind fun _ => (Made.placeFrom _).bind fun _ => .pure _

theorem statement_made : (fuel : Nat) → Made true (statement fuel)
  | 0 => .exhausted
  | fuel + 1 => by
    refine Made.current.bind fun keyword => ?_
    split
    · exact Made.advance.bind fun _ => forRest_made fuel keyword
    · exact Made.advance.bind fun _ => ifRest_made fuel keyword
    · exact Made.advance.bind fun _ => printRest_made true fuel keyword
    · exact Made.advance.bind fun _ => returnRest_made true fuel keyword
    · exact Made.advance.bind fun _ => whileRest_made fuel keyword
    · exact Made.advance.bind fun _ => breakRest_made true keyword
    · exact Made.advance.bind fun _ => continueRest_made true keyword
    · refine Made.advance.bind fun _ => (blockRest_made fuel #[]).bind fun _ => ?_
      exact (Made.placeFrom _).bind fun _ => .pure _
    · exact expressionStatement_made true fuel

theorem blockRest_made : (fuel : Nat) → (before : Array (Stmt Place)) →
    Made true (blockRest fuel before)
  | 0, _ => .exhausted
  | fuel + 1, before => by
    refine (Made.check _).bind fun _ => Made.atEnd.bind fun _ => .choice ?_ ?_
    · exact (Made.expect _ _).bind fun _ => .pure _
    · refine (declaration_made fuel).bind fun found => ?_
      cases found with
      | none => exact blockRest_made fuel before
      | some stmt => exact blockRest_made fuel _

theorem ifRest_made : (fuel : Nat) → (keyword : Token) → Made true (ifRest fuel keyword)
  | 0, _ => .exhausted
  | fuel + 1, keyword => by
    refine (Made.expect _ _).bind fun _ => (expression_made true fuel).bind fun condition => ?_
    refine (Made.expect _ _).bind fun _ => (statement_made fuel).bind fun body => ?_
    refine (Made.eat _).bind fun _ => .choice ?_ ((Made.placeFrom _).bind fun _ => .pure _)
    exact (statement_made fuel).bind fun _ => (Made.placeFrom _).bind fun _ => .pure _

theorem whileRest_made : (fuel : Nat) → (keyword : Token) → Made true (whileRest fuel keyword)
  | 0, _ => .exhausted
  | fuel + 1, keyword => by
    refine (Made.expect _ _).bind fun _ => (expression_made true fuel).bind fun condition => ?_
    refine (Made.expect _ _).bind fun _ => (statement_made fuel).bind fun body => ?_
    exact (Made.placeFrom _).bind fun _ => .pure _

theorem forRest_made : (fuel : Nat) → (keyword : Token) → Made true (forRest fuel keyword)
  | 0, _ => .exhausted
  | fuel + 1, keyword => by
    refine (Made.expect _ _).bind fun _ => (firstClause_made true fuel).bind fun first => ?_
    refine (conditionClause_made true fuel).bind fun condition => ?_
    refine (lastClause_made true fuel).bind fun last => (statement_made fuel).bind fun body => ?_
    exact (Made.spanFrom _).bind fun _ => (Made.placeFrom _).bind fun _ => .pure _

end

theorem program_made : (fuel : Nat) → (before : Array (Stmt Place)) → Made true (program fuel before)
  | 0, _ => .exhausted
  | fuel + 1, before => by
    refine Made.atEnd.bind fun _ => .choice (.pure _) ?_
    refine (declaration_made fuel).bind fun found => ?_
    cases found with
    | none => exact program_made fuel before
    | some stmt => exact program_made fuel _

end Parser
end Lox
