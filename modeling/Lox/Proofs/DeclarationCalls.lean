import Lox.Proofs.ParserParts
import Lox.Proofs.ParserBudget

/-! The declarations that parsing tries, one after another at the top level and in blocks. Each attempt
reads at least one token. Each one that fails reports one error of its own and can be charged with a
token for it. -/

namespace Lox

/-- A declaration that was tried: where that began, what was found, and where it left off. -/
structure Attempt where
  start : Progress
  found : Option (Stmt Place)
  stop : Progress

/-- An attempt that fails reports what broke it off last, behind what the attempts in it report. -/
def Attempt.own (attempt : Attempt) : Option ParseError :=
  if attempt.found.isNone then attempt.stop.errors.back? else none

/-- The declarations that a parser tries, by where it starts. -/
abbrev Calls := Progress → List Attempt

open Lox.Parser

namespace Calls

def nothing : Calls := fun _ => []

/-- The declarations that a parser tries, and then those behind it. -/
def andThen {α : Type} (calls : Calls) (parser : Parser α) (next : α → Calls) : Calls :=
  fun start => calls start ++
    match parser start with
    | .ok value middle => next value middle
    | .error _ _ => []

/-- The declarations that are tried behind a parser that tries none. -/
def after {α : Type} (parser : Parser α) (next : α → Calls) : Calls := nothing.andThen parser next

theorem after_nothing {α : Type} (parser : Parser α) : after parser (fun _ => nothing) = nothing := by
  funext start
  simp only [after, andThen, nothing]
  cases parser start <;> rfl

/-- The declarations that are tried in another one, and then that one. -/
def within (calls : Calls) (outer : Parser (Option (Stmt Place))) : Calls := fun start =>
  calls start ++
    match outer start with
    | .ok found stop => [⟨start, found, stop⟩]
    | .error _ _ => []

theorem within_ok {calls : Calls} {outer : Parser (Option (Stmt Place))} {start stop : Progress}
    {found : Option (Stmt Place)} (ran : outer start = .ok found stop) :
    calls.within outer start = calls start ++ [⟨start, found, stop⟩] := by
  rw [within, ran]

mutual

def ofDeclaration : Nat → Calls
  | 0 => nothing
  | fuel + 1 =>
    (after current fun _ =>
      after (eat (.keyword .varWord)) fun eaten =>
        if eaten then nothing
        else
          after (eat (.keyword .funWord)) fun eaten =>
            if eaten then ofFunctionRest fuel else ofStatement fuel).within
      (declaration (fuel + 1))
termination_by structural fuel => fuel

def ofFunctionRest : Nat → Calls
  | 0 => nothing
  | fuel + 1 =>
    after (expectName "expected function name") fun _ =>
      after (expect (.symbol .leftParen) "expected '(' after function name") fun _ =>
        after (do if ← check (.symbol .rightParen) then pure [] else parameters fuel #[]) fun _ =>
          after (expect (.symbol .rightParen) "expected ')' after parameters") fun _ =>
            after (expect (.symbol .leftBrace) "expected '\x7b' before function body") fun _ =>
              ofBlockRest fuel
termination_by structural fuel => fuel

def ofStatement : Nat → Calls
  | 0 => nothing
  | fuel + 1 =>
    after current fun token =>
      match token.kind with
      | .keyword .forWord => after advance fun _ => ofForRest fuel
      | .keyword .ifWord => after advance fun _ => ofIfRest fuel
      | .keyword .whileWord => after advance fun _ => ofWhileRest fuel
      | .symbol .leftBrace => after advance fun _ => ofBlockRest fuel
      | _ => nothing
termination_by structural fuel => fuel

def ofBlockRest : Nat → Calls
  | 0 => nothing
  | fuel + 1 =>
    after (check (.symbol .rightBrace)) fun closes =>
      after atEnd fun ended =>
        if closes || ended then nothing
        else (ofDeclaration fuel).andThen (declaration fuel) fun _ => ofBlockRest fuel
termination_by structural fuel => fuel

def ofIfRest : Nat → Calls
  | 0 => nothing
  | fuel + 1 =>
    after (expect (.symbol .leftParen) "expected '(' after 'if'") fun _ =>
      after (expression fuel) fun _ =>
        after (expect (.symbol .rightParen) "expected ')' after if condition") fun _ =>
          (ofStatement fuel).andThen (statement fuel) fun _ =>
            after (eat (.keyword .elseWord)) fun eaten =>
              if eaten then ofStatement fuel else nothing
termination_by structural fuel => fuel

def ofWhileRest : Nat → Calls
  | 0 => nothing
  | fuel + 1 =>
    after (expect (.symbol .leftParen) "expected '(' after while") fun _ =>
      after (expression fuel) fun _ =>
        after (expect (.symbol .rightParen) "expected ')' after while condition") fun _ =>
          ofStatement fuel
termination_by structural fuel => fuel

def ofForRest : Nat → Calls
  | 0 => nothing
  | fuel + 1 =>
    after (expect (.symbol .leftParen) "expected '(' after 'for'") fun _ =>
      after (firstClause fuel) fun _ =>
        after (conditionClause fuel) fun _ =>
          after (lastClause fuel) fun _ => ofStatement fuel
termination_by structural fuel => fuel

end

/-- An attempt is the last one of its own. -/
theorem ofDeclaration_ok {fuel : Nat} {start stop : Progress} {found : Option (Stmt Place)}
    (ran : declaration fuel start = .ok found stop) :
    ∃ inner, ofDeclaration fuel start = inner ++ [⟨start, found, stop⟩] := by
  cases fuel with
  | zero => cases ran
  | succ fuel => exact ⟨_, within_ok ran⟩

def ofProgram : Nat → Calls
  | 0 => nothing
  | fuel + 1 =>
    after atEnd fun ended =>
      if ended then nothing
      else (ofDeclaration fuel).andThen (declaration fuel) fun _ => ofProgram fuel

end Calls

open Progress

/-- An attempt that is made in the course of parsing: it begins in front of the end, reads a token,
and if it fails, it has an error of its own. -/
structure Attempt.Proper (start : Progress) (attempt : Attempt) : Prop where
  made : ∃ fuel, Parser.declaration fuel attempt.start = .ok attempt.found attempt.stop
  before : Steps true start attempt.start
  onwards : Steps true attempt.start attempt.stop
  inside : attempt.start.here ≠ .eof
  consumes : attempt.stop.left < attempt.start.left
  own : attempt.found = none → ∃ error, attempt.own = some error ∧ error.code.breaks = true

theorem Attempt.Proper.later {start middle : Progress} {attempt : Attempt}
    (steps : Steps true start middle) (proper : attempt.Proper middle) : attempt.Proper start :=
  { proper with before := steps.trans proper.before }

namespace Calls

variable {α β : Type}

/-- What the attempts in the course of a parser report themselves. -/
def owned (calls : Calls) (start : Progress) : List ParseError := (calls start).filterMap Attempt.own

/-- The errors that break declarations off are those that the attempts report themselves. For each of
them a token has been read, and besides so many others. Where no attempt fails, the parser itself may
fail before it has read these. -/
structure Account (calls : Calls) (parser : Parser α) (start : Progress) (others : Nat) : Prop where
  walks : Parser.Walks true parser start
  proper : ∀ attempt ∈ calls start, attempt.Proper start
  settled : match parser start with
    | .ok _ stop => stop.broken = start.broken ++ calls.owned start ∧
        (calls.owned start).length + others + stop.left ≤ start.left
    | .error _ stop => stop.broken = start.broken ++ calls.owned start ∧
        (calls.owned start = [] ∨ (calls.owned start).length + others + stop.left ≤ start.left)

namespace Account

variable {calls : Calls} {parser : Parser α} {start middle : Progress} {others : Nat}
  {next : α → Parser β} {behind : α → Calls}

theorem plain (made : ∀ catches, Made catches parser)
    (reads : ∀ value stop, parser start = .ok value stop → others + stop.left ≤ start.left) :
    Account nothing parser start others := by
  refine ⟨(made true).walks start, by simp [nothing], ?_⟩
  have unbroken := (made false).walks start
  unfold Walks at unbroken
  split <;> rename_i ran <;> rw [ran] at unbroken
  · refine ⟨by simpa [owned, nothing] using unbroken.unbroken, ?_⟩
    simpa [owned, nothing] using reads _ _ ran
  · exact ⟨by simpa [owned, nothing] using unbroken.1.unbroken, .inl rfl⟩

theorem exhausted : Account nothing (throw .exhausted : Parser α) start others := by
  refine .plain (fun _ => .exhausted) fun value stop ran => ?_
  cases ran

theorem weaken {fewer : Nat} (account : Account calls parser start others) (less : fewer ≤ others) :
    Account calls parser start fewer := by
  refine ⟨account.walks, account.proper, ?_⟩
  have settled := account.settled
  split <;> rename_i ran <;> rw [ran] at settled
  · exact ⟨settled.1, by omega⟩
  · exact ⟨settled.1, settled.2.imp_right fun paid => by omega⟩

/-- One parser and then another. If something is tried in the first, the second need not read a token:
it may fail at once, and then no more has been read than in the first. -/
theorem andThen {before more : Nat} (closed : Closed start.kinds)
    (first : Account calls parser start before) (free : calls start = [] ∨ more = 0)
    (goesOn : ∀ value middle, Closed middle.kinds → middle.left ≤ start.left →
      parser start = .ok value middle → Account (behind value) (next value) middle more) :
    Account (calls.andThen parser behind) (parser >>= next) start (before + more) := by
  obtain ⟨walks, proper, settled⟩ := first
  cases ran : parser start with
  | error halt stop =>
    have same : calls.andThen parser behind start = calls start := by simp [Calls.andThen, ran]
    rw [ran] at settled
    refine ⟨walks.bind fun _ _ ran' => ?_, same ▸ proper, ?_⟩
    · cases ran.symm.trans ran'
    · simp only [Sequencing.bind_error ran, owned, same]
      refine ⟨settled.1, ?_⟩
      rcases free with none | rfl
      · exact .inl (by rw [none]; rfl)
      · exact settled.2
  | ok value middle =>
    have same : calls.andThen parser behind start = calls start ++ behind value middle := by
      simp [Calls.andThen, ran]
    rw [ran] at settled
    have steps : Steps true start middle := by simpa only [Walks, ran] using walks
    obtain ⟨closed, fewer⟩ := steps.closed closed
    obtain ⟨walks', proper', settled'⟩ := goesOn value middle closed fewer ran
    have both : (calls.andThen parser behind).owned start =
        calls.owned start ++ (behind value).owned middle := by
      rw [owned, same, List.filterMap_append, owned, owned]
    refine ⟨walks.bind fun _ _ ran' => ?_, fun attempt member => ?_, ?_⟩
    · cases ran.symm.trans ran'
      exact walks'
    · rw [same] at member
      rcases List.mem_append.mp member with member | member
      · exact proper attempt member
      · exact (proper' attempt member).later steps
    · simp only [Sequencing.bind_ok ran, both, List.length_append]
      unfold Walks at walks'
      split <;> rename_i ran' <;> rw [ran'] at settled' walks'
      · exact ⟨by rw [settled'.1, settled.1, List.append_assoc], by omega⟩
      · refine ⟨by rw [settled'.1, settled.1, List.append_assoc], ?_⟩
        have lasts := (walks'.1.closed closed).2
        rcases settled'.2 with empty | paid
        · rw [empty]
          rcases free with none | rfl
          · exact .inl (by rw [owned, none]; rfl)
          · right
            simp only [List.length_nil]
            omega
        · exact .inr (by omega)

theorem quiet (made : ∀ catches, Made catches parser) (closed : Closed start.kinds) :
    Account nothing parser start 0 := by
  refine .plain made fun value stop ran => ?_
  rw [Nat.zero_add]
  exact ((made true).onwards closed ran).2

/-- A parser that tries nothing and then another. -/
theorem after (closed : Closed start.kinds) (made : ∀ catches, Made catches parser)
    (goesOn : ∀ value middle, Closed middle.kinds → middle.left ≤ start.left →
      Account (behind value) (next value) middle 0) :
    Account (Calls.after parser behind) (parser >>= next) start 0 :=
  (quiet made closed).andThen closed (.inr rfl) fun value middle closed fewer _ =>
    goesOn value middle closed fewer

/-- A parser that tries nothing, where it is known what it does. -/
theorem step {value : α} {more : Nat} (closed : Closed start.kinds)
    (made : ∀ catches, Made catches parser) (ran : parser start = .ok value middle)
    (reads : others + middle.left ≤ more + start.left)
    (goesOn : Closed middle.kinds → Account (behind value) (next value) middle more) :
    Account (Calls.after parser behind) (parser >>= next) start others := by
  have first : Account nothing parser start (others - more) := by
    refine .plain made fun value' stop ran' => ?_
    cases ran.symm.trans ran'
    have further := ((made true).onwards closed ran).2
    omega
  have both : Account (Calls.after parser behind) (parser >>= next) start (others - more + more) := by
    refine first.andThen closed (.inl rfl) fun value' middle' closed _ ran' => ?_
    cases ran.symm.trans ran'
    exact goesOn closed
  exact both.weaken (by omega)

/-- A parser that only looks. -/
theorem look {value : α} (closed : Closed start.kinds) (made : ∀ catches, Made catches parser)
    (seen : parser start = .ok value start)
    (goesOn : Account (behind value) (next value) start others) :
    Account (Calls.after parser behind) (parser >>= next) start others :=
  step closed made seen (Nat.le_refl _) fun _ => goesOn

theorem advance {next : Unit → Parser β} {behind : Unit → Calls} (closed : Closed start.kinds)
    (moving : start.here ≠ .eof)
    (goesOn : Closed start.advanced.kinds → Account (behind ()) (next ()) start.advanced 0) :
    Account (Calls.after Parser.advance behind) (Parser.advance >>= next) start 1 := by
  have ran : Parser.advance start = .ok () start.advanced := rfl
  have reads := Progress.left_advanced closed moving
  exact step closed (fun _ => .advance) ran (by omega) goesOn

theorem eat {kind : TokenKind} {yes no : Parser β} {taken other : Calls}
    (closed : Closed start.kinds) (fixed : kind.Fixed)
    (ifTaken : Closed start.advanced.kinds → Account taken yes start.advanced 0)
    (ifOther : Account other no start 1) :
    Account (Calls.after (Parser.eat kind) fun eaten => if eaten then taken else other)
      (Parser.eat kind >>= fun eaten => if eaten then yes else no) start 1 := by
  by_cases stands : start.here = kind
  · have reads := Progress.left_advanced closed (stands ▸ fixed.ne_eof)
    exact step closed (fun _ => .eat kind) (eat_taken fixed stands) (by omega) ifTaken
  · exact look closed (fun _ => .eat kind) (eat_other fixed stands) ifOther

theorem expect {kind : TokenKind} {message : String} (closed : Closed start.kinds)
    (fixed : kind.Fixed) : Account nothing (Parser.expect kind message) start 1 := by
  refine .plain (fun _ => .expect _ _) fun token stop ran => ?_
  by_cases stands : start.here = kind
  · rw [expect_taken fixed stands] at ran
    cases ran
    have reads := Progress.left_advanced closed (stands ▸ fixed.ne_eof)
    rw [Nat.add_comm]
    exact Nat.le_of_eq reads
  · rw [expect_other fixed stands] at ran
    cases ran

/-- What cannot fail and does nothing may follow. -/
theorem finish (account : Account calls parser start others)
    (done : ∀ value stop, ∃ result, next value stop = .ok result stop) :
    Account calls (parser >>= next) start others := by
  obtain ⟨walks, proper, settled⟩ := account
  refine ⟨walks.bind fun value stop _ => ?_, proper, ?_⟩
  · obtain ⟨result, ended⟩ := done value stop
    exact .of_ok ended .refl
  · cases ran : parser start with
    | error halt stop => simpa only [Sequencing.bind_error ran, ran] using settled
    | ok value stop =>
      obtain ⟨result, ended⟩ := done value stop
      simpa only [Sequencing.bind_ok ran, ended, ran] using settled

/-- A declaration that is tried counts as an attempt, behind those in it. -/
private theorem attempted {fuel : Nat} {found : Option (Stmt Place)} {stop : Progress}
    (ran : Parser.declaration fuel start = .ok found stop) (inside : start.here ≠ .eof)
    (proper : ∀ attempt ∈ calls start, attempt.Proper start) (consumes : stop.left < start.left)
    (fails : found = none → ∃ error, stop.errors.back? = some error ∧ error.code.breaks = true)
    (broken : stop.broken = start.broken ++ (calls.owned start ++ (Attempt.own ⟨start, found, stop⟩).toList))
    (paid : (calls.owned start).length + (Attempt.own ⟨start, found, stop⟩).toList.length + stop.left ≤
      start.left) :
    Account (calls.within (Parser.declaration fuel)) (Parser.declaration fuel) start 0 := by
  have walks := (declaration_made fuel).walks start
  have onwards : Steps true start stop := by simpa only [Walks, ran] using walks
  have same : calls.within (Parser.declaration fuel) start = calls start ++ [⟨start, found, stop⟩] :=
    within_ok ran
  have owns : (calls.within (Parser.declaration fuel)).owned start =
      calls.owned start ++ (Attempt.own ⟨start, found, stop⟩).toList := by
    rw [owned, same, List.filterMap_append, owned]
    cases own : Attempt.own ⟨start, found, stop⟩ <;> simp [own]
  refine ⟨walks, fun attempt member => ?_, ?_⟩
  · rw [same] at member
    rcases List.mem_append.mp member with member | member
    · exact proper attempt member
    · obtain rfl := List.mem_singleton.mp member
      refine ⟨⟨fuel, ran⟩, .refl, onwards, inside, consumes, fun failed => ?_⟩
      obtain ⟨error, last, breaks⟩ := fails failed
      have failed : found = none := failed
      exact ⟨error, by simp [Attempt.own, failed, last], breaks⟩
  · simp only [ran, owns, List.length_append]
    exact ⟨broken, paid⟩

/-- An attempt that fails is charged with a token that it read in front of the attempts in it, or,
where none of these failed, with the token in error that is skipped. -/
private theorem attempted_in_vain {fuel : Nat} {stop : Progress} {error : ParseError}
    (ran : Parser.declaration fuel start =
      .ok none ⟨stop.cursor.synchronize, stop.errors.push error⟩)
    (closed : Closed start.kinds) (inside : start.here ≠ .eof) (steps : Steps true start stop)
    (proper : ∀ attempt ∈ calls start, attempt.Proper start) (breaks : error.code.breaks = true)
    (broken : stop.broken = start.broken ++ calls.owned start)
    (paid : calls.owned start = [] ∨ (calls.owned start).length + 1 + stop.left ≤ start.left) :
    Account (calls.within (Parser.declaration fuel)) (Parser.declaration fuel) start 0 := by
  have more : 2 ≤ start.left := two_left closed (mt Cursor.atEnd_iff.mp inside)
  obtain ⟨closed, fewer⟩ := steps.closed closed
  have filled : 1 ≤ stop.left := List.length_pos_iff.mpr closed.ne_nil
  have shorter : Progress.left ⟨stop.cursor.synchronize, stop.errors.push error⟩ ≤
      max 1 (stop.left - 1) := (Cursor.synchronize_closed closed).2
  have own : Attempt.own ⟨start, none, ⟨stop.cursor.synchronize, stop.errors.push error⟩⟩ =
      some error := by
    simp [Attempt.own]
  refine attempted ran inside proper (by omega) (fun _ => ⟨error, by simp, breaks⟩) ?_ ?_
  · have broken : Progress.broken ⟨stop.cursor.synchronize, stop.errors⟩ =
        start.broken ++ calls.owned start := broken
    rw [broken_push, if_pos breaks, broken, own, List.append_assoc]
    rfl
  · simp only [own, Option.toList_some, List.length_singleton]
    rcases paid with empty | paid
    · rw [empty, List.length_nil]
      omega
    · omega

theorem declaration {fuel : Nat} {body : Parser (Stmt Place)} (closed : Closed start.kinds)
    (inside : start.here ≠ .eof) (recovers : Parser.declaration fuel = recover body)
    (account : Account calls body start 1) :
    Account (calls.within (Parser.declaration fuel)) (Parser.declaration fuel) start 0 := by
  obtain ⟨walks, proper, settled⟩ := account
  cases ran : body start with
  | ok stmt stop =>
    rw [ran] at settled
    have ended : Parser.declaration fuel start = .ok (some stmt) stop := by
      simp only [recovers, recover, ran]
    have none : Attempt.own ⟨start, some stmt, stop⟩ = none := rfl
    refine attempted ended inside proper (by omega) nofun ?_ ?_
    · simpa [none] using settled.1
    · simp only [none, Option.toList_none, List.length_nil]
      omega
  | error halt stop =>
    rw [Walks, ran] at walks
    rw [ran] at settled
    cases halt with
    | exhausted =>
      have ended : Parser.declaration fuel start = .error .exhausted stop := by
        simp only [recovers, recover, ran]
      have same : calls.within (Parser.declaration fuel) start = calls start := by
        simp [within, ended]
      refine ⟨(declaration_made fuel).walks start, same ▸ proper, ?_⟩
      simp only [ended, owned, same]
      exact ⟨settled.1, settled.2.imp_right fun paid => by simp only [owned] at paid; omega⟩
    | failed error =>
      have ended : Parser.declaration fuel start =
          .ok none ⟨stop.cursor.synchronize, stop.errors.push error⟩ := by
        simp only [recovers, recover, ran]
      have breaks := walks.2 error rfl
      exact attempted_in_vain ended closed inside walks.1 proper breaks settled.1 settled.2

end Account

theorem expressionStatement_account (fuel : Nat) {start : Progress} (closed : Closed start.kinds) :
    Account nothing (expressionStatement fuel) start 1 := by
  have expr : Account nothing (expression fuel) start 0 := .quiet (expression_made · fuel) closed
  rw [← after_nothing (expression fuel)]
  change Account _ _ start (0 + 1)
  refine expr.andThen closed (.inl rfl) fun expr middle closed _ _ => ?_
  exact (Account.expect closed .symbol).finish fun _ stop => ⟨_, rfl⟩

/-- A statement that is read behind its keyword without any declarations. -/
theorem simple_account {rest : Parser (Stmt Place)} {start : Progress} (closed : Closed start.kinds)
    (moving : start.here ≠ .eof) (made : ∀ catches, Made catches rest) :
    Account nothing (advance >>= fun _ => rest) start 1 := by
  rw [← after_nothing advance]
  exact .advance closed moving fun closed => .quiet made closed

mutual

theorem ofDeclaration_account : (fuel : Nat) → (start : Progress) → (closed : Closed start.kinds) →
    (inside : start.here ≠ .eof) → Account (ofDeclaration fuel) (declaration fuel) start 0
  | 0, _, _, _ => .exhausted
  | fuel + 1, start, closed, inside => by
    refine .declaration closed inside rfl (.look closed (fun _ => .current) rfl ?_)
    refine .eat closed .keyword (fun closed => .quiet (declareRest_made · fuel _) closed) ?_
    apply Account.eat closed .keyword
    · exact fun closed => ofFunctionRest_account fuel _ _ closed
    · exact ofStatement_account fuel start closed

theorem ofFunctionRest_account : (fuel : Nat) → (keyword : Token) → (start : Progress) →
    (closed : Closed start.kinds) → Account (ofFunctionRest fuel) (functionRest fuel keyword) start 0
  | 0, _, _, _ => .exhausted
  | fuel + 1, keyword, start, closed => by
    apply Account.after closed (fun _ => .expectName _)
    intro name start closed _
    apply Account.after closed (fun _ => .expect _ _)
    intro _ start closed _
    rw [if_then_rest]
    apply Account.after closed (parameterList_made · fuel)
    intro params start closed _
    apply Account.after closed (fun _ => .expect _ _)
    intro _ start closed _
    apply Account.after closed (fun _ => .expect _ _)
    intro _ start closed _
    exact (ofBlockRest_account fuel #[] start closed).finish fun body stop => ⟨_, rfl⟩

theorem ofStatement_account : (fuel : Nat) → (start : Progress) → (closed : Closed start.kinds) →
    Account (ofStatement fuel) (statement fuel) start 1
  | 0, _, _ => .exhausted
  | fuel + 1, start, closed => by
    refine .look closed (fun _ => .current) rfl ?_
    have keyword {word : Keyword} (stands : start.here = .keyword word) : start.here ≠ .eof := by
      simp [stands]
    split
    next stands =>
      simp only [stands]
      exact .advance closed (keyword stands) fun closed => ofForRest_account fuel _ _ closed
    next stands =>
      simp only [stands]
      exact .advance closed (keyword stands) fun closed => ofIfRest_account fuel _ _ closed
    next stands =>
      simp only [stands]
      exact .advance closed (keyword stands) fun closed => ofWhileRest_account fuel _ _ closed
    next stands =>
      simp only [stands]
      have moving : start.here ≠ .eof := by simp [Progress.here, stands]
      refine .advance closed moving fun closed => ?_
      exact (ofBlockRest_account fuel #[] _ closed).finish fun _ stop => ⟨_, rfl⟩
    next noFor noIf noWhile noBlock =>
      split
      next stands => exact absurd stands noFor
      next stands => exact absurd stands noIf
      next stands => exact simple_account closed (keyword stands) (printRest_made · fuel _)
      next stands => exact simple_account closed (keyword stands) (returnRest_made · fuel _)
      next stands => exact absurd stands noWhile
      next stands => exact simple_account closed (keyword stands) (breakRest_made · _)
      next stands => exact simple_account closed (keyword stands) (continueRest_made · _)
      next stands => exact absurd stands noBlock
      next => exact expressionStatement_account fuel closed

theorem ofBlockRest_account : (fuel : Nat) → (before : Array (Stmt Place)) → (start : Progress) →
    (closed : Closed start.kinds) → Account (ofBlockRest fuel) (blockRest fuel before) start 0
  | 0, _, _, _ => .exhausted
  | fuel + 1, before, start, closed => by
    refine .look closed (fun _ => .check _) rfl (.look closed (fun _ => .atEnd) rfl ?_)
    split
    next => exact (Account.quiet (fun _ => .expect _ _) closed).finish fun _ stop => ⟨_, rfl⟩
    next going =>
      have inside : start.here ≠ .eof := fun last => by simp [Cursor.atEnd_iff.mpr last] at going
      apply (ofDeclaration_account fuel start closed inside).andThen closed (.inr rfl)
      intro found middle closed _ _
      cases found with
      | none => exact ofBlockRest_account fuel before middle closed
      | some stmt => exact ofBlockRest_account fuel _ middle closed

theorem ofIfRest_account : (fuel : Nat) → (keyword : Token) → (start : Progress) →
    (closed : Closed start.kinds) → Account (ofIfRest fuel) (ifRest fuel keyword) start 0
  | 0, _, _, _ => .exhausted
  | fuel + 1, keyword, start, closed => by
    apply Account.after closed (fun _ => .expect _ _)
    intro _ start closed _
    apply Account.after closed (expression_made · fuel)
    intro condition start closed _
    apply Account.after closed (fun _ => .expect _ _)
    intro _ start closed _
    have body := (ofStatement_account fuel start closed).weaken (Nat.zero_le 1)
    apply body.andThen closed (.inr rfl)
    intro body start closed _ _
    apply Account.after closed (fun _ => .eat _)
    intro eaten start closed _
    have other := (ofStatement_account fuel start closed).weaken (Nat.zero_le 1)
    cases eaten with
    | true => exact other.finish fun _ stop => ⟨_, rfl⟩
    | false => exact (Account.quiet (fun _ => .placeFrom _) closed).finish fun _ stop => ⟨_, rfl⟩

theorem ofWhileRest_account : (fuel : Nat) → (keyword : Token) → (start : Progress) →
    (closed : Closed start.kinds) → Account (ofWhileRest fuel) (whileRest fuel keyword) start 0
  | 0, _, _, _ => .exhausted
  | fuel + 1, keyword, start, closed => by
    apply Account.after closed (fun _ => .expect _ _)
    intro _ start closed _
    apply Account.after closed (expression_made · fuel)
    intro condition start closed _
    apply Account.after closed (fun _ => .expect _ _)
    intro _ start closed _
    have body := (ofStatement_account fuel start closed).weaken (Nat.zero_le 1)
    exact body.finish fun _ stop => ⟨_, rfl⟩

theorem ofForRest_account : (fuel : Nat) → (keyword : Token) → (start : Progress) →
    (closed : Closed start.kinds) → Account (ofForRest fuel) (forRest fuel keyword) start 0
  | 0, _, _, _ => .exhausted
  | fuel + 1, keyword, start, closed => by
    apply Account.after closed (fun _ => .expect _ _)
    intro _ start closed _
    apply Account.after closed (firstClause_made · fuel)
    intro first start closed _
    apply Account.after closed (conditionClause_made · fuel)
    intro condition start closed _
    apply Account.after closed (lastClause_made · fuel)
    intro last start closed _
    have body := (ofStatement_account fuel start closed).weaken (Nat.zero_le 1)
    exact body.finish fun _ stop => ⟨_, rfl⟩

end

theorem ofProgram_account : (fuel : Nat) → (before : Array (Stmt Place)) → (start : Progress) →
    (closed : Closed start.kinds) → Account (ofProgram fuel) (program fuel before) start 0
  | 0, _, _, _ => .exhausted
  | fuel + 1, before, start, closed => by
    refine .look closed (fun _ => .atEnd) rfl ?_
    split
    next => exact .quiet (fun _ => .pure _) closed
    next going =>
      have inside : start.here ≠ .eof := mt Cursor.atEnd_iff.mpr going
      apply (ofDeclaration_account fuel start closed inside).andThen closed (.inr rfl)
      intro found middle closed _ _
      cases found with
      | none => exact ofProgram_account fuel before middle closed
      | some stmt => exact ofProgram_account fuel _ middle closed

end Calls
end Lox
