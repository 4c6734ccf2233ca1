import Lox.Proofs.GrammarTables
import Lox.Proofs.ParserSteps

/-! The budget of a parser is never used up. Between two tokens that are read, calls nest less than
sixteen deep: how deep a function may still nest before it reads a token is the number added to its
bound below. -/

namespace Lox.Parser
open Grammar

variable {α β : Type}

/-- The parser does not run out of its budget, and reads at least some tokens if it does not fail. -/
def Lasts (parser : Parser α) (start : Progress) (used : Nat) : Prop :=
  match parser start with
  | .ok _ stop => Closed stop.kinds ∧ stop.left + used ≤ start.left
  | .error (.failed _) stop => Closed stop.kinds ∧ stop.left ≤ start.left
  | .error .exhausted _ => False

namespace Lasts

variable {start : Progress} {used : Nat} {parser : Parser α} {next : α → Parser β}

theorem of_ok {value : α} {stop : Progress} (ran : parser start = .ok value stop)
    (closed : Closed stop.kinds) (fewer : stop.left + used ≤ start.left) :
    Lasts parser start used := by
  simp only [Lasts, ran]
  exact ⟨closed, fewer⟩

theorem of_failed {error : ParseError} (ran : parser start = .error (.failed error) start)
    (closed : Closed start.kinds) : Lasts parser start used := by
  simp only [Lasts, ran]
  exact ⟨closed, Nat.le_refl _⟩

theorem pure {value : α} (closed : Closed start.kinds) : Lasts (Pure.pure value) start 0 :=
  of_ok rfl closed (Nat.le_refl _)

theorem weaken {more : Nat} (lasts : Lasts parser start more) (fewer : used ≤ more) :
    Lasts parser start used := by
  unfold Lasts at lasts ⊢
  split
  next ran =>
    rw [ran] at lasts
    exact ⟨lasts.1, Nat.le_trans (Nat.add_le_add_left fewer _) lasts.2⟩
  next ran =>
    rw [ran] at lasts
    exact lasts
  next ran =>
    rw [ran] at lasts
    exact lasts

theorem bind {before : Nat} (first : Lasts parser start before)
    (goesOn : ∀ value middle, Closed middle.kinds → middle.left + before ≤ start.left →
      Lasts (next value) middle (used - before)) : Lasts (parser >>= next) start used := by
  unfold Lasts at first
  split at first
  next value middle ran =>
    have rest := goesOn value middle first.1 first.2
    unfold Lasts at rest ⊢
    rw [Sequencing.bind_ok ran]
    split <;> rename_i done <;> rw [done] at rest
    · exact ⟨rest.1, by omega⟩
    · exact ⟨rest.1, by omega⟩
    · exact rest
  next ran =>
    unfold Lasts
    rw [Sequencing.bind_error ran]
    exact first
  next => exact first.elim

theorem map {f : α → β} (lasts : Lasts parser start used) : Lasts (f <$> parser) start used := by
  rw [map_eq_pure_bind]
  refine lasts.bind fun value middle closed _ => ?_
  rw [Nat.sub_self]
  exact pure closed

/-- A parser that only looks. -/
theorem look {value : α} (seen : parser start = .ok value start)
    (goesOn : Lasts (next value) start used) : Lasts (parser >>= next) start used := by
  unfold Lasts at goesOn ⊢
  rwa [Sequencing.bind_ok seen]

theorem choose {before : Nat} {test : Parser Bool} {yes no : Parser α}
    (first : Lasts (test >>= fun holds => if holds then yes else no) start before)
    (goesOn : ∀ value middle, Closed middle.kinds → middle.left + before ≤ start.left →
      Lasts (next value) middle (used - before)) :
    Lasts (test >>= fun holds => if holds then yes >>= next else no >>= next) start used := by
  rw [if_then_rest]
  exact first.bind goesOn

theorem check {kind : TokenKind} {yes no : Parser α} (taken : Lasts yes start used)
    (other : Lasts no start used) :
    Lasts (check kind >>= fun found => if found then yes else no) start used := by
  refine look rfl ?_
  split
  · exact taken
  · exact other

/-- What a warning adds is not read. -/
theorem warn {condition : Prop} [Decidable condition] {code : Code} {message : String}
    (goesOn : ∀ errors, Lasts parser ⟨start.cursor, errors⟩ used) :
    Lasts (if condition then reportHere code message >>= fun _ => parser else parser) start used := by
  split
  · have rest := goesOn (start.errors.push (start.cursor.errorHere code message))
    unfold Lasts at rest ⊢
    exact rest
  · exact goesOn start.errors

theorem of_advanced {value : α} (closed : Closed start.kinds) (moving : start.here ≠ .eof)
    (ran : parser start = .ok value start.advanced) : Lasts parser start 1 :=
  of_ok ran (Progress.kinds_advanced closed moving).2
    (Nat.le_of_eq (Progress.left_advanced closed moving))

theorem advance {next : Unit → Parser β} (closed : Closed start.kinds)
    (moving : start.here ≠ .eof) (goesOn : ∀ middle, Closed middle.kinds →
      middle.left < start.left → Lasts (next ()) middle (used - 1)) :
    Lasts (Parser.advance >>= next) start used :=
  (of_advanced closed moving rfl).bind fun _ => goesOn

theorem eat {kind : TokenKind} {yes no : Parser α} (closed : Closed start.kinds)
    (fixed : kind.Fixed) (taken : ∀ middle, Closed middle.kinds → middle.left < start.left →
      Lasts yes middle (used - 1)) (other : Lasts no start used) :
    Lasts (Parser.eat kind >>= fun eaten => if eaten then yes else no) start used := by
  by_cases stands : start.here = kind
  · have moving : start.here ≠ .eof := stands ▸ fixed.ne_eof
    have after := Progress.kinds_advanced closed moving
    have fewer := Progress.left_advanced closed moving
    have rest := taken start.advanced after.2 (Nat.le_of_eq fewer)
    unfold Lasts at rest ⊢
    rw [Sequencing.bind_ok (eat_taken fixed stands)]
    simp only [if_true]
    split <;> rename_i ran <;> rw [ran] at rest
    · exact ⟨rest.1, by omega⟩
    · exact ⟨rest.1, by omega⟩
    · exact rest
  · exact look (eat_other fixed stands) (by simpa using other)

theorem expect {kind : TokenKind} {message : String} (closed : Closed start.kinds)
    (fixed : kind.Fixed) : Lasts (Parser.expect kind message) start 1 := by
  by_cases stands : start.here = kind
  · exact of_advanced closed (stands ▸ fixed.ne_eof) (expect_taken fixed stands)
  · exact of_failed (expect_other fixed stands) closed

theorem expectName {message : String} (closed : Closed start.kinds) :
    Lasts (Parser.expectName message) start 1 := by
  by_cases named : ∃ name, start.here = .identifier name
  · obtain ⟨name, stands⟩ := named
    exact of_advanced closed (by simp [stands]) (expectName_taken stands)
  · exact of_failed (expectName_other (not_exists.mp named)) closed

/-- After a failure parsing is taken up behind the token in error. -/
theorem recover (more : 2 ≤ start.left) (lasts : Lasts parser start 1) :
    Lasts (Parser.recover parser) start 1 := by
  unfold Lasts Parser.recover at *
  split at lasts <;> rename_i ran
  · simpa only [ran] using lasts
  · obtain ⟨after, shorter⟩ := Cursor.synchronize_closed lasts.1
    simp only [ran]
    refine ⟨after, ?_⟩
    have fewer := lasts.2
    simp only [Progress.left, Progress.kinds] at *
    omega
  · exact lasts.elim

end Lasts

mutual

theorem expression_lasts (fuel : Nat) (start : Progress) (closed : Closed start.kinds)
    (enough : 16 * start.left + 10 ≤ fuel) : Lasts (expression fuel) start 0 :=
  match fuel, enough with
  | 0, enough => by omega
  | fuel + 1, enough => by
    have levels : Level.all.length = 6 := rfl
    apply (chain_lasts fuel Level.all start closed (by omega) (by omega)).bind
    intro target middle closed fewer
    refine .look rfl (.eat closed .symbol (fun after closed fewer => ?_) (.pure closed))
    apply (expression_lasts fuel after closed (by omega)).bind
    intro value last closed _
    split
    · exact .pure closed
    · exact .of_ok rfl closed (Nat.le_refl _)
termination_by structural fuel

theorem chain_lasts (fuel : Nat) (levels : List Level) (start : Progress)
    (closed : Closed start.kinds) (few : levels.length ≤ 6)
    (enough : 16 * start.left + levels.length + 3 ≤ fuel) : Lasts (chain fuel levels) start 0 :=
  match fuel, enough with
  | 0, enough => by omega
  | fuel + 1, enough => by
    cases levels with
    | nil => exact unary_lasts fuel start closed (by simp at enough; omega)
    | cons level tighter =>
      simp only [List.length_cons] at few enough
      apply (chain_lasts fuel tighter start closed (by omega) (by omega)).bind
      intro left middle closed fewer
      exact chainRest_lasts fuel level tighter left middle closed (by omega) (by omega)
termination_by structural fuel

theorem chainRest_lasts (fuel : Nat) (level : Level) (tighter : List Level) (left : Expr Place)
    (start : Progress) (closed : Closed start.kinds) (few : tighter.length ≤ 6)
    (enough : 16 * start.left + 1 ≤ fuel) : Lasts (chainRest fuel level tighter left) start 0 :=
  match fuel, enough with
  | 0, enough => by omega
  | fuel + 1, enough => by
    refine .look rfl ?_
    split
    next => exact .pure closed
    next joint found =>
      have moving : start.here ≠ .eof := (operator_iff.mpr found).ne_eof
      refine .advance closed moving fun middle closed fewer => ?_
      apply (chain_lasts fuel tighter middle closed few (by omega)).bind
      intro right after closed further
      exact chainRest_lasts fuel level tighter _ after closed few (by omega)
termination_by structural fuel

theorem unary_lasts (fuel : Nat) (start : Progress) (closed : Closed start.kinds)
    (enough : 16 * start.left + 2 ≤ fuel) : Lasts (unary fuel) start 0 :=
  match fuel, enough with
  | 0, enough => by omega
  | fuel + 1, enough => by
    refine .look rfl ?_
    split
    next operator found =>
      have moving : start.here ≠ .eof := (prefix_iff.mpr found).ne_eof
      refine .advance closed moving fun middle closed fewer => ?_
      exact (unary_lasts fuel middle closed (by omega)).bind fun _ _ closed _ => .pure closed
    next =>
      apply (primary_lasts fuel start closed (by omega)).bind
      intro callee middle closed fewer
      exact calls_lasts fuel callee middle closed (by omega)
termination_by structural fuel

theorem calls_lasts (fuel : Nat) (callee : Expr Place) (start : Progress)
    (closed : Closed start.kinds) (enough : 16 * start.left + 1 ≤ fuel) :
    Lasts (calls fuel callee) start 0 :=
  match fuel, enough with
  | 0, enough => by omega
  | fuel + 1, enough => by
    refine .eat closed .symbol (fun middle closed fewer => ?_) (.pure closed)
    have passed : Lasts (check (.symbol .rightParen) >>= fun found =>
        if found then Pure.pure [] else arguments fuel #[]) middle 0 :=
      .check (.pure closed) (arguments_lasts fuel #[] middle closed (by omega))
    refine .choose passed fun arguments after closed further => ?_
    apply (Lasts.expect closed .symbol).bind
    intro close last closed further
    exact calls_lasts fuel _ last closed (by omega)
termination_by structural fuel

theorem arguments_lasts (fuel : Nat) (before : Array (Expr Place)) (start : Progress)
    (closed : Closed start.kinds) (enough : 16 * start.left + 11 ≤ fuel) :
    Lasts (arguments fuel before) start 0 :=
  match fuel, enough with
  | 0, enough => by omega
  | fuel + 1, enough => by
    refine .warn fun errors => ?_
    have enough' : 16 * Progress.left ⟨start.cursor, errors⟩ + 10 ≤ fuel := Nat.le_of_succ_le_succ enough
    apply (expression_lasts fuel ⟨start.cursor, errors⟩ closed enough').bind
    intro argument middle closed fewer
    refine .eat closed .symbol (fun after closed further => ?_) (.pure closed)
    exact arguments_lasts fuel _ after closed (by omega)
termination_by structural fuel

theorem primary_lasts (fuel : Nat) (start : Progress) (closed : Closed start.kinds)
    (enough : 16 * start.left + 1 ≤ fuel) : Lasts (primary fuel) start 0 :=
  match fuel, enough with
  | 0, enough => by omega
  | fuel + 1, enough => by
    refine .look rfl (.eat closed .symbol (fun middle closed fewer => ?_) ?_)
    · refine (expression_lasts fuel middle closed (by omega)).bind fun inner after closed _ => ?_
      exact (Lasts.expect closed .symbol).bind fun _ _ closed _ => .pure closed
    · split
      next leaf found =>
        have moving : start.here ≠ .eof := (leaf_of_leaf? found).ne_eof
        exact .advance closed moving fun _ closed _ => .pure closed
      next => exact .of_failed rfl closed
termination_by structural fuel

end

/-- Where the input does not end there is a token before its end. -/
theorem two_left {start : Progress} (closed : Closed start.kinds)
    (inside : ¬ start.cursor.atEnd = true) : 2 ≤ start.left := by
  have moving : start.here ≠ .eof := mt Cursor.atEnd_iff.mpr inside
  have rest := List.length_pos_iff.mpr (Progress.kinds_advanced closed moving).2.ne_nil
  have fewer := Progress.left_advanced closed moving
  simp only [Progress.left] at *
  omega

theorem optional_lasts {closing : TokenKind} {fuel : Nat} {start : Progress}
    (closed : Closed start.kinds) (enough : 16 * start.left + 10 ≤ fuel) :
    Lasts (check closing >>= fun found => if found then pure none else some <$> expression fuel)
      start 0 :=
  .check (.pure closed) (.map (expression_lasts fuel start closed enough))

section
variable {fuel : Nat} {start : Progress} {keyword : Token} (closed : Closed start.kinds)
  (enough : 16 * start.left + 10 ≤ fuel)
include closed

theorem breakRest_lasts : Lasts (breakRest keyword) start 0 :=
  (Lasts.expect closed .symbol).bind fun _ _ closed _ => .look rfl (.pure closed)

theorem continueRest_lasts : Lasts (continueRest keyword) start 0 :=
  (Lasts.expect closed .symbol).bind fun _ _ closed _ => .look rfl (.pure closed)

include enough

theorem declareRest_lasts : Lasts (declareRest fuel keyword) start 0 := by
  apply (Lasts.expectName closed).bind
  intro name middle closed fewer
  have initial : Lasts (eat (.symbol .equal) >>= fun eaten =>
      if eaten then some <$> expression fuel else pure none) middle 0 :=
    .eat closed .symbol (fun after closed fewer => .map (expression_lasts fuel after closed (by omega)))
      (.pure closed)
  refine .choose initial fun value after closed fewer => ?_
  exact (Lasts.expect closed .symbol).bind fun _ _ closed _ => .look rfl (.pure closed)

theorem printRest_lasts : Lasts (printRest fuel keyword) start 0 := by
  apply (expression_lasts fuel start closed enough).bind
  intro value middle closed fewer
  exact (Lasts.expect closed .symbol).bind fun _ _ closed _ => .look rfl (.pure closed)

theorem returnRest_lasts : Lasts (returnRest fuel keyword) start 0 := by
  refine .choose (optional_lasts closed enough) fun value middle closed fewer => ?_
  exact (Lasts.expect closed .symbol).bind fun _ _ closed _ => .look rfl (.pure closed)

theorem expressionStatement_lasts : Lasts (expressionStatement fuel) start 1 := by
  apply (expression_lasts fuel start closed enough).bind
  intro expr middle closed fewer
  exact (Lasts.expect closed .symbol).bind fun _ _ closed _ => .look rfl (.pure closed)

theorem firstClause_lasts : Lasts (firstClause fuel) start 0 := by
  refine .look rfl (.eat closed .symbol (fun middle closed _ => .pure closed) ?_)
  refine .eat closed .keyword (fun middle closed fewer => ?_) ?_
  · exact .map (declareRest_lasts closed (by omega))
  · exact .map ((expressionStatement_lasts closed enough).weaken (Nat.zero_le 1))

theorem conditionClause_lasts : Lasts (conditionClause fuel) start 0 := by
  refine .choose (optional_lasts closed enough) fun value middle closed fewer => ?_
  exact (Lasts.expect closed .symbol).bind fun _ _ closed _ => .pure closed

theorem lastClause_lasts : Lasts (lastClause fuel) start 0 := by
  refine .choose (optional_lasts closed enough) fun value middle closed fewer => ?_
  exact (Lasts.expect closed .symbol).bind fun _ _ closed _ => .pure closed

end

theorem parameters_lasts (fuel : Nat) (before : Array String) (start : Progress)
    (closed : Closed start.kinds) (enough : 16 * start.left + 1 ≤ fuel) :
    Lasts (parameters fuel before) start 0 :=
  match fuel, enough with
  | 0, enough => by omega
  | fuel + 1, enough => by
    refine .warn fun errors => ?_
    have enough : 16 * Progress.left ⟨start.cursor, errors⟩ + 1 ≤ fuel + 1 := enough
    have name : Lasts (expectName "expected parameter name") ⟨start.cursor, errors⟩ 1 := .expectName closed
    refine name.bind fun name middle closed fewer => ?_
    refine .eat closed .symbol (fun after closed further => ?_) (.pure closed)
    exact parameters_lasts fuel _ after closed (by omega)
termination_by structural fuel

mutual

theorem declaration_lasts (fuel : Nat) (start : Progress) (closed : Closed start.kinds)
    (more : 2 ≤ start.left) (enough : 16 * start.left + 12 ≤ fuel) :
    Lasts (declaration fuel) start 1 :=
  match fuel, enough with
  | 0, enough => by omega
  | fuel + 1, enough => by
    refine .recover more (.look rfl ?_)
    refine .eat closed .keyword (fun middle closed fewer => declareRest_lasts closed (by omega)) ?_
    refine .eat closed .keyword (fun middle closed fewer => ?_) ?_
    · exact functionRest_lasts fuel _ middle closed (by omega)
    · exact statement_lasts fuel start closed (by omega)
termination_by structural fuel

theorem functionRest_lasts (fuel : Nat) (keyword : Token) (start : Progress)
    (closed : Closed start.kinds) (enough : 16 * start.left + 1 ≤ fuel) :
    Lasts (functionRest fuel keyword) start 0 :=
  match fuel, enough with
  | 0, enough => by omega
  | fuel + 1, enough => by
    apply (Lasts.expectName closed).bind
    intro name start closed fewer
    apply (Lasts.expect closed .symbol).bind
    intro _ start closed fewer
    have named : Lasts (check (.symbol .rightParen) >>= fun found =>
        if found then pure [] else parameters fuel #[]) start 0 :=
      .check (.pure closed) (parameters_lasts fuel #[] start closed (by omega))
    refine .choose named fun params start closed fewer => ?_
    apply (Lasts.expect closed .symbol).bind
    intro _ start closed fewer
    apply (Lasts.expect closed .symbol).bind
    intro _ start closed fewer
    apply (blockRest_lasts fuel #[] start closed (by omega)).bind
    intro body start closed fewer
    exact .look rfl (.pure closed)
termination_by structural fuel

theorem statement_lasts (fuel : Nat) (start : Progress) (closed : Closed start.kinds)
    (enough : 16 * start.left + 11 ≤ fuel) : Lasts (statement fuel) start 1 :=
  match fuel, enough with
  | 0, enough => by omega
  | fuel + 1, enough => by
    refine .look rfl ?_
    split <;> try rename_i stands; have moving : start.here ≠ .eof := by simp [Progress.here, stands]
    · exact .advance closed moving fun middle closed fewer => forRest_lasts fuel _ middle closed (by omega)
    · exact .advance closed moving fun middle closed fewer => ifRest_lasts fuel _ middle closed (by omega)
    · exact .advance closed moving fun middle closed fewer => printRest_lasts closed (by omega)
    · exact .advance closed moving fun middle closed fewer => returnRest_lasts closed (by omega)
    · exact .advance closed moving fun middle closed fewer => whileRest_lasts fuel _ middle closed (by omega)
    · exact .advance closed moving fun middle closed fewer => breakRest_lasts closed
    · exact .advance closed moving fun middle closed fewer => continueRest_lasts closed
    · refine .advance closed moving fun middle closed fewer => ?_
      apply (blockRest_lasts fuel #[] middle closed (by omega)).bind
      intro body middle closed fewer
      exact .look rfl (.pure closed)
    · exact expressionStatement_lasts closed (by omega)
termination_by structural fuel

theorem blockRest_lasts (fuel : Nat) (before : Array (Stmt Place)) (start : Progress)
    (closed : Closed start.kinds) (enough : 16 * start.left + 13 ≤ fuel) :
    Lasts (blockRest fuel before) start 0 :=
  match fuel, enough with
  | 0, enough => by omega
  | fuel + 1, enough => by
    refine .look rfl (.look rfl ?_)
    split
    next => exact (Lasts.expect closed .symbol).bind fun _ _ closed _ => .pure closed
    next inside =>
      have more := two_left closed (by simp at inside; simp [inside])
      apply (declaration_lasts fuel start closed more (by omega)).bind
      intro stmt middle closed fewer
      cases stmt with
      | none => exact blockRest_lasts fuel before middle closed (by omega)
      | some stmt => exact blockRest_lasts fuel _ middle closed (by omega)
termination_by structural fuel

theorem ifRest_lasts (fuel : Nat) (keyword : Token) (start : Progress)
    (closed : Closed start.kinds) (enough : 16 * start.left + 1 ≤ fuel) :
    Lasts (ifRest fuel keyword) start 0 :=
  match fuel, enough with
  | 0, enough => by omega
  | fuel + 1, enough => by
    apply (Lasts.expect closed .symbol).bind
    intro _ start closed fewer
    apply (expression_lasts fuel start closed (by omega)).bind
    intro condition start closed fewer
    apply (Lasts.expect closed .symbol).bind
    intro _ start closed fewer
    apply (statement_lasts fuel start closed (by omega)).bind
    intro body start closed fewer
    refine .eat closed .keyword (fun start closed fewer => ?_) (.look rfl (.pure closed))
    apply (statement_lasts fuel start closed (by omega)).bind
    intro other start closed fewer
    exact .look rfl (.pure closed)
termination_by structural fuel

theorem whileRest_lasts (fuel : Nat) (keyword : Token) (start : Progress)
    (closed : Closed start.kinds) (enough : 16 * start.left + 1 ≤ fuel) :
    Lasts (whileRest fuel keyword) start 0 :=
  match fuel, enough with
  | 0, enough => by omega
  | fuel + 1, enough => by
    apply (Lasts.expect closed .symbol).bind
    intro _ start closed fewer
    apply (expression_lasts fuel start closed (by omega)).bind
    intro condition start closed fewer
    apply (Lasts.expect closed .symbol).bind
    intro _ start closed fewer
    apply (statement_lasts fuel start closed (by omega)).bind
    intro body start closed fewer
    exact .look rfl (.pure closed)
termination_by structural fuel

theorem forRest_lasts (fuel : Nat) (keyword : Token) (start : Progress)
    (closed : Closed start.kinds) (enough : 16 * start.left + 1 ≤ fuel) :
    Lasts (forRest fuel keyword) start 0 :=
  match fuel, enough with
  | 0, enough => by omega
  | fuel + 1, enough => by
    apply (Lasts.expect closed .symbol).bind
    intro _ start closed fewer
    apply (firstClause_lasts closed (by omega)).bind
    intro first start closed fewer
    apply (conditionClause_lasts closed (by omega)).bind
    intro condition start closed fewer
    apply (lastClause_lasts closed (by omega)).bind
    intro last start closed fewer
    apply (statement_lasts fuel start closed (by omega)).bind
    intro body start closed fewer
    exact .look rfl (.look rfl (.pure closed))
termination_by structural fuel

end

theorem program_lasts (fuel : Nat) (before : Array (Stmt Place)) (start : Progress)
    (closed : Closed start.kinds) (enough : 16 * start.left + 13 ≤ fuel) :
    Lasts (program fuel before) start 0 :=
  match fuel, enough with
  | 0, enough => by omega
  | fuel + 1, enough => by
    refine .look rfl ?_
    split
    next => exact .pure closed
    next inside =>
      have more := two_left closed inside
      apply (declaration_lasts fuel start closed more (by omega)).bind
      intro stmt middle closed fewer
      cases stmt with
      | none => exact program_lasts fuel before middle closed (by omega)
      | some stmt => exact program_lasts fuel _ middle closed (by omega)
termination_by structural fuel

theorem recover_not_failed {parser : Parser (Stmt Place)} {start stop : Progress}
    {error : ParseError} : recover parser start ≠ .error (.failed error) stop := by
  intro failed
  unfold recover at failed
  split at failed <;> cases failed

/-- A declaration in error is skipped, so a program as a whole cannot fail. -/
theorem program_not_failed (fuel : Nat) (before : Array (Stmt Place)) (start stop : Progress)
    (error : ParseError) : program fuel before start ≠ .error (.failed error) stop := by
  induction fuel generalizing before start with
  | zero => intro failed; cases failed
  | succ fuel ih =>
    intro failed
    by_cases ended : start.here = .eof
    · rw [program_ended ended] at failed
      cases failed
    · rw [program_inside ended] at failed
      cases ran : declaration fuel start with
      | ok found middle =>
        rw [Sequencing.bind_ok ran] at failed
        exact ih _ middle failed
      | error halt middle =>
        rw [Sequencing.bind_error ran] at failed
        obtain ⟨rfl, rfl⟩ := EStateM.Result.error.inj failed
        cases fuel with
        | zero => cases ran
        | succ fuel => exact recover_not_failed ran

/-- Parsing the tokens of a source comes to an end with a program. -/
theorem program_ends {fuel : Nat} {before : Array (Stmt Place)} {start : Progress}
    (closed : Closed start.kinds) (enough : 16 * start.left + 13 ≤ fuel) :
    ∃ value stop, program fuel before start = .ok value stop := by
  have lasts := program_lasts fuel before start closed enough
  unfold Lasts at lasts
  split at lasts
  next value stop ran => exact ⟨value, stop, ran⟩
  next error stop ran => exact absurd ran (program_not_failed fuel before start stop error)
  next => exact lasts.elim

end Lox.Parser
