import Lox.Proofs.ExpressionExactness
import Lox.Proofs.ParserGrammar

/-! Statements and declarations are read exactly, and so is a program: the first error that is
reported stands at the first token that no program goes on with. -/

namespace Lox

/-- What a form goes on with behind its first part. -/
def Grammar.Form.rest : Form → Form
  | .next _ second => second
  | form => form

namespace Parser
open Grammar Form

/-- Whatever comes behind and begins with an `else`, a statement has been read behind the `else`. -/
def ElseClosed (behind : Language TokenKind) : Prop :=
  ∀ later, .keyword .elseWord :: later ∈ behind → later ∈ (symbol .statement).language * behind

namespace ElseClosed

variable {behind : Language TokenKind}

theorem of_avoids (avoids : Avoids (· = .keyword .elseWord) behind) : ElseClosed behind :=
  fun later member => absurd member (avoids _ rfl later)

theorem last (closed : ElseClosed behind) : ElseClosed ((inOrder []).language * behind) := by
  rwa [inOrder, language_nothing, one_mul]

theorem ofElse (closed : ElseClosed behind) : ElseClosed
    ((inOrder [.maybe (inOrder [word .elseWord, symbol .statement])]).language * behind) := by
  intro later member
  have whole : (inOrder [.maybe (inOrder [word .elseWord, symbol .statement])]).language =
      (maybe (inOrder [word .elseWord, symbol .statement])).language := by
    rw [inOrder, inOrder, language_next, language_nothing, mul_one]
  rw [whole] at member ⊢
  have statement : later ∈ (symbol .statement).language * behind := by
    rcases mem_maybe.mp member with member | member
    · exact closed later member
    · rw [inOrder, inOrder, inOrder, language_next, language_next, language_nothing, mul_one,
        mul_assoc] at member
      obtain ⟨_, single, _, inside, same⟩ := Language.mem_mul.mp member
      obtain ⟨_, rfl, -⟩ := mem_one.mp single
      obtain ⟨-, rfl⟩ := List.cons.inj same
      exact inside
  obtain ⟨front, derived, back, inside, rfl⟩ := Language.mem_mul.mp statement
  exact Language.append_mem_mul derived (mem_maybe.mpr (.inl inside))

end ElseClosed

theorem not_prolongs_other {kind : TokenKind} (ends : Ends kind) (other : TokenKind)
    (prolongs : Prolongs other) : other ≠ kind := by
  rintro rfl
  exact ends.not_prolongs prolongs

/-- Behind what may be left out stands a token that tells whether it is. -/
theorem leads {kind : TokenKind} {some : ∃ other, other = kind} {rest : Form}
    (behind : Language TokenKind) :
    Avoids (· ≠ kind) ((next (one (· = kind) some) rest).language * behind) :=
  .of_opens (.next .one) fun _ other same => other same

theorem varDeclaration_opens : (symbol .varDeclaration).Opens (· = .keyword .varWord) :=
  .symbol (.next .one)

theorem exprStatement_opens : (symbol .exprStatement).Opens Starts :=
  .symbol (.next expression_opens)

section
variable (fuel : Nat) (keyword : Token) (start : Progress) (closed : Closed start.kinds)
include closed

theorem optional_exact {closing : Symbol} (ends : Ends (.symbol closing))
    (closes : closing ∈ [Symbol.semicolon, .rightParen]) :
    Exact (Avoids (· ≠ .symbol closing)) (.maybe (symbol .expression))
      (check (.symbol closing) >>= fun found => if found then pure none else some <$> expression fuel)
      start :=
  .optional .symbol expression_opens (closing_not_starts closes)
    (.map (expression_exact fuel start closed)) fun _ avoids => avoids.mono (not_prolongs_other ends)

theorem declareRest_exact :
    Exact (fun _ => True) Nonterminal.varDeclaration.rule.rest (declareRest fuel keyword) start := by
  refine .expectName closed fun name stop closed => ?_
  have initial : Exact (Avoids (· ≠ .symbol .semicolon))
      (.maybe (inOrder [sign .equal, symbol .expression]))
      (eat (.symbol .equal) >>= fun eaten => if eaten then some <$> expression fuel else pure none)
      stop := by
    by_cases equals : stop.here = .symbol .equal
    · refine .take (.eat closed .symbol equals fun stop closed => ?_) ?_
      · refine .last (.restrict (.map (expression_exact fuel stop closed)) fun _ avoids => ?_)
        exact avoids.mono (not_prolongs_other .semicolon)
      · exact fun _ avoids later member => absurd member (avoids _ (by simp [equals]) later)
    · exact .eat_not .symbol equals (.skip .pure (.next .one) equals)
  refine .choose closed initial (fun initial stop closed => ?_) fun _ _ => leads _
  exact .expect closed .symbol fun _ _ _ => .look rfl .pure

theorem printRest_exact :
    Exact (fun _ => True) Nonterminal.printStatement.rule.rest (printRest fuel keyword) start := by
  refine .bind closed (expression_exact fuel start closed) ?_ fun _ _ => Ends.semicolon.fits _
  exact fun value stop _ closed => .expect closed .symbol fun _ _ _ => .look rfl .pure

theorem returnRest_exact :
    Exact (fun _ => True) Nonterminal.returnStatement.rule.rest (returnRest fuel keyword) start := by
  refine .choose closed (optional_exact fuel start closed .semicolon (by simp)) ?_ fun _ _ => leads _
  exact fun value stop closed => .expect closed .symbol fun _ _ _ => .look rfl .pure

theorem breakRest_exact :
    Exact (fun _ => True) Nonterminal.breakStatement.rule.rest (breakRest keyword) start :=
  .expect closed .symbol fun _ _ _ => .look rfl .pure

theorem continueRest_exact :
    Exact (fun _ => True) Nonterminal.continueStatement.rule.rest (continueRest keyword) start :=
  .expect closed .symbol fun _ _ _ => .look rfl .pure

theorem expressionStatement_exact :
    Exact (fun _ => True) (symbol .exprStatement) (expressionStatement fuel) start := by
  refine .symbol (.bind closed (expression_exact fuel start closed) ?_ fun _ _ => Ends.semicolon.fits _)
  exact fun value stop _ closed => .expect closed .symbol fun _ _ _ => .look rfl .pure

theorem firstClause_exact : Exact (fun _ => True)
    (oneOf (symbol .varDeclaration) [symbol .exprStatement, sign .semicolon])
    (firstClause fuel) start := by
  refine .look rfl ?_
  by_cases none : start.here = .symbol .semicolon
  · refine .right (.right (.single (.eat closed .symbol none fun _ _ => .pure)) exprStatement_opens ?_)
      varDeclaration_opens ?_
    · exact none ▸ closing_not_starts (by simp)
    · simp [none]
  · refine .eat_not .symbol none ?_
    by_cases declares : start.here = .keyword .varWord
    · have others : (oneOf (symbol .exprStatement) [sign .semicolon]).Opens
          (· ≠ .keyword .varWord) := by
        refine .either (exprStatement_opens.mono ?_) (Opens.one.mono ?_)
        · rintro _ starts rfl
          cases starts
        · rintro _ rfl
          simp
      refine .left (.symbol (.eat closed .keyword declares fun stop closed => ?_)) others
        fun other => other declares
      exact .map (declareRest_exact fuel start.cursor.current stop closed)
    · refine .eat_not .keyword declares (.right (.left ?_ .one none) varDeclaration_opens declares)
      exact .map (expressionStatement_exact fuel start closed)

theorem conditionClause_exact : Exact (fun _ => True)
    (inOrder [.maybe (symbol .expression), sign .semicolon]) (conditionClause fuel) start := by
  refine .choose closed (optional_exact fuel start closed .semicolon (by simp)) ?_ fun _ _ => leads _
  exact fun value stop closed => .expect closed .symbol fun _ _ _ => .pure

theorem lastClause_exact : Exact (fun _ => True)
    (inOrder [.maybe (symbol .expression), sign .rightParen]) (lastClause fuel) start := by
  refine .choose closed (optional_exact fuel start closed .rightParen (by simp)) ?_ fun _ _ => leads _
  exact fun value stop closed => .expect closed .symbol fun _ _ _ => .pure

end

theorem parameters_exact (fuel : Nat) (before : Array String) (start : Progress)
    (closed : Closed start.kinds) :
    Exact (Avoids (· = .symbol .comma)) (symbol .params) (parameters fuel before) start := by
  induction fuel generalizing before start with
  | zero => exact .exhausted
  | succ fuel ih =>
    refine .symbol (.warn fun stop same => .expectName (same ▸ closed) fun name stop closed => ?_)
    by_cases another : stop.here = .symbol .comma
    · refine .more (.flatten (.eat closed .symbol another fun stop closed => ?_)) ?_
      · exact (ih _ stop closed).rule
      · exact fun behind avoids => avoids.last _ another
    · exact .eat_not .symbol another (.done .pure (.next .one) another)

theorem funDeclaration_opens : (symbol .funDeclaration).Opens (· = .keyword .funWord) :=
  .symbol (.next .one)

theorem fun_not_statementStarts : ¬ StatementStarts (.keyword .funWord) := by
  intro starts
  cases starts with
  | expression starts => cases starts

theorem functions_open :
    (oneOf (symbol .funDeclaration) [symbol .statement]).Opens (· ≠ .keyword .varWord) := by
  refine .either (funDeclaration_opens.mono ?_) (statement_opens.mono ?_)
  · rintro _ rfl
    simp
  · rintro _ starts rfl
    cases starts with
    | expression starts => cases starts

theorem params_opens : (symbol .params).Opens fun kind => ∃ name, kind = .identifier name :=
  .symbol (.next .one)

/-- No `else` comes behind a declaration among others. -/
theorem declarations_fit {closing : TokenKind} {rest : Form} {behind : Language TokenKind}
    (other : closing ≠ .keyword .elseWord) (avoids : Avoids (· ≠ closing) (rest.language * behind)) :
    ElseClosed ((Form.next (.many (symbol .declaration)) rest).language * behind) := by
  have outside : Avoids (· = .keyword .elseWord)
      ((inOrder [.many (symbol .declaration)]).language * (rest.language * behind)) := by
    refine .many declaration_opens ?_ (avoids.mono ?_)
    · rintro _ rfl
      exact not_declarationStarts (.inr (.inr rfl))
    · rintro _ rfl
      exact other.symm
  rw [inOrder, inOrder, language_next, language_nothing, mul_one, ← mul_assoc] at outside
  rw [language_next]
  exact .of_avoids outside

/-- A statement that a token of its own begins. -/
theorem Exact.leading {name : Nonterminal} {kind : TokenKind} {some : ∃ other, other = kind}
    {start : Progress} {next : Unit → Parser (Stmt Place)} (closed : Closed start.kinds)
    (stands : start.here = kind) (fixed : kind.Fixed)
    (rule : name.rule = .next (.one (· = kind) some) name.rule.rest)
    (heads : Heads (.symbol name) kind) (plain : ¬ Starts kind)
    (inside : Form.symbol name ∈ statements)
    (goesOn : ∀ stop, Closed (Progress.kinds stop) → Exact ElseClosed name.rule.rest (next ()) stop) :
    Exact ElseClosed Nonterminal.statement.rule (Parser.advance >>= next) start := by
  have led : Exact ElseClosed name.rule (Parser.advance >>= next) start := by
    rw [rule]
    exact .advance closed stands (stands ▸ fixed.ne_eof) goesOn
  subst stands
  exact .among led.symbol inside heads_of_statements fun _ => heads.unique plain

theorem closes_iff {start : Progress} :
    (start.cursor.check (.symbol .rightBrace) || start.cursor.atEnd) = true ↔
      start.here = .symbol .rightBrace ∨ start.here = .eof := by
  rw [Bool.or_eq_true, Cursor.atEnd_iff]
  exact or_congr_left (TokenKind.Fixed.symbol.same_iff)

mutual

theorem declaration_exact (fuel : Nat) (start : Progress) (closed : Closed start.kinds) :
    Exact ElseClosed (symbol .declaration) (declaration fuel) start :=
  match fuel with
  | 0 => .exhausted
  | fuel + 1 => by
    refine .recover (.symbol (.look rfl ?_))
    by_cases declares : start.here = .keyword .varWord
    · refine .left (.symbol (.eat closed .keyword declares fun stop closed => ?_)) functions_open
        fun other => other declares
      exact (declareRest_exact fuel start.cursor.current stop closed).anywhere
    refine .eat_not .keyword declares (.right ?_ varDeclaration_opens declares)
    by_cases function : start.here = .keyword .funWord
    · refine .left (.symbol (.eat closed .keyword function fun stop closed => ?_))
        statement_opens (function ▸ fun_not_statementStarts)
      exact (functionRest_exact fuel start.cursor.current stop closed).anywhere
    · exact .eat_not .keyword function
        (.right (statement_exact fuel start closed) funDeclaration_opens function)
termination_by structural fuel

theorem functionRest_exact (fuel : Nat) (keyword : Token) (start : Progress)
    (closed : Closed start.kinds) :
    Exact (fun _ => True) Nonterminal.funDeclaration.rule.rest (functionRest fuel keyword) start :=
  match fuel with
  | 0 => .exhausted
  | fuel + 1 => by
    refine .expectName closed fun name stop closed => .expect closed .symbol fun _ stop closed => ?_
    refine .choose closed (.optional .symbol params_opens nofun
      (parameters_exact fuel #[] stop closed) ?_) ?_ fun _ _ => leads _
    · exact fun _ avoids => avoids.mono fun _ same => by simp [same]
    · refine fun params stop closed => .expect closed .symbol fun _ stop closed => ?_
      refine .last (.symbol (.expect closed .symbol fun _ stop closed => .single ?_))
      refine .bind closed (blockRest_exact fuel #[] stop closed) ?_ fun _ _ => trivial
      exact fun body stop _ _ => .look rfl .pure
termination_by structural fuel

theorem statement_exact (fuel : Nat) (start : Progress) (closed : Closed start.kinds) :
    Exact ElseClosed (symbol .statement) (statement fuel) start :=
  match fuel with
  | 0 => .exhausted
  | fuel + 1 => by
    refine .symbol (.look rfl ?_)
    split
    next stands =>
      refine .leading closed stands .keyword rfl .forLoop nofun (by simp [statements]) ?_
      exact fun stop closed => forRest_exact fuel start.cursor.current stop closed
    next stands =>
      refine .leading closed stands .keyword rfl .conditional nofun (by simp [statements]) ?_
      exact fun stop closed => ifRest_exact fuel start.cursor.current stop closed
    next stands =>
      refine .leading closed stands .keyword rfl .print nofun (by simp [statements]) ?_
      exact fun stop closed => (printRest_exact fuel start.cursor.current stop closed).anywhere
    next stands =>
      refine .leading closed stands .keyword rfl .returnValue nofun (by simp [statements]) ?_
      exact fun stop closed => (returnRest_exact fuel start.cursor.current stop closed).anywhere
    next stands =>
      refine .leading closed stands .keyword rfl .whileLoop nofun (by simp [statements]) ?_
      exact fun stop closed => whileRest_exact fuel start.cursor.current stop closed
    next stands =>
      refine .leading closed stands .keyword rfl .breakLoop nofun (by simp [statements]) ?_
      exact fun stop closed => (breakRest_exact start.cursor.current stop closed).anywhere
    next stands =>
      refine .leading closed stands .keyword rfl .continueLoop nofun (by simp [statements]) ?_
      exact fun stop closed => (continueRest_exact start.cursor.current stop closed).anywhere
    next stands =>
      refine .leading closed stands .symbol rfl .block nofun (by simp [statements]) ?_
      refine fun stop closed => .single (.bind closed (blockRest_exact fuel #[] stop closed) ?_ ?_)
      · exact fun body stop _ _ => .look rfl .pure
      · exact fun _ _ => trivial
    -- Nothing that begins another statement stands here, so the form left is that of expressions.
    next for' if' print' return' while' break' continue' block' =>
      have expression := expressionStatement_exact fuel start closed
      refine .among expression.anywhere List.mem_cons_self heads_of_statements ?_
      intro other heads
      generalize same : start.here = kind at heads
      cases heads with
      | expression => rfl
      | print => exact (print' same).elim
      | conditional => exact (if' same).elim
      | whileLoop => exact (while' same).elim
      | forLoop => exact (for' same).elim
      | returnValue => exact (return' same).elim
      | breakLoop => exact (break' same).elim
      | continueLoop => exact (continue' same).elim
      | block => exact (block' same).elim
termination_by structural fuel

theorem blockRest_exact (fuel : Nat) (before : Array (Stmt Place)) (start : Progress)
    (closed : Closed start.kinds) :
    Exact (fun _ => True) (inOrder [.many (symbol .declaration), sign .rightBrace])
      (blockRest fuel before) start :=
  match fuel with
  | 0 => .exhausted
  | fuel + 1 => by
    refine .look rfl (.look rfl ?_)
    split
    next closing =>
      refine .done (.expect closed .symbol fun _ _ _ => .pure) declaration_opens ?_
      exact not_declarationStarts ((closes_iff.mp closing).imp_right .inl)
    next inside =>
      refine .more (.bind closed (declaration_exact fuel start closed) ?_ ?_) ?_
      · intro found stop _ closed
        cases found with
        | none => exact blockRest_exact fuel before stop closed
        | some stmt => exact blockRest_exact fuel _ stop closed
      · intro behind _
        have closing : TokenKind.symbol .rightBrace ≠ .keyword .elseWord := by simp
        exact declarations_fit closing (leads behind)
      · intro behind _ later member
        have here := here_of_one member
        exact inside (closes_iff.mpr (.inl here))
termination_by structural fuel

theorem ifRest_exact (fuel : Nat) (keyword : Token) (start : Progress)
    (closed : Closed start.kinds) :
    Exact ElseClosed Nonterminal.ifStatement.rule.rest (ifRest fuel keyword) start :=
  match fuel with
  | 0 => .exhausted
  | fuel + 1 => by
    refine .expect closed .symbol fun _ stop closed => ?_
    refine .bind closed (expression_exact fuel stop closed) ?_ fun _ _ => Ends.rightParen.fits _
    refine fun condition stop _ closed => .expect closed .symbol fun _ stop closed => ?_
    refine .bind closed (statement_exact fuel stop closed) ?_ fun _ closed => closed.ofElse
    intro body stop _ closed
    refine .last ?_
    by_cases other : stop.here = .keyword .elseWord
    · refine .take (.eat closed .keyword other fun stop closed => ?_) ?_
      · refine .bind closed (statement_exact fuel stop closed) ?_ fun _ closed => closed.last
        exact fun other stop _ _ => .look rfl .pure
      · intro behind closed later member
        rw [other] at member ⊢
        obtain ⟨front, derived, back, inside, rfl⟩ := Language.mem_mul.mp (closed later member)
        have whole : (inOrder [word .elseWord, symbol .statement]).Derives
            ([.keyword .elseWord] ++ (front ++ [])) := .next (.one rfl) (.next derived .nothing)
        rw [List.append_nil] at whole
        exact Language.append_mem_mul whole inside
    · exact .eat_not .keyword other (.skip (.look rfl .pure) (.next .one) other)
termination_by structural fuel

theorem whileRest_exact (fuel : Nat) (keyword : Token) (start : Progress)
    (closed : Closed start.kinds) :
    Exact ElseClosed Nonterminal.whileStatement.rule.rest (whileRest fuel keyword) start :=
  match fuel with
  | 0 => .exhausted
  | fuel + 1 => by
    refine .expect closed .symbol fun _ stop closed => ?_
    refine .bind closed (expression_exact fuel stop closed) ?_ fun _ _ => Ends.rightParen.fits _
    refine fun condition stop _ closed => .expect closed .symbol fun _ stop closed => ?_
    refine .bind closed (statement_exact fuel stop closed) ?_ fun _ closed => closed.last
    exact fun body stop _ _ => .look rfl .pure
termination_by structural fuel

theorem forRest_exact (fuel : Nat) (keyword : Token) (start : Progress)
    (closed : Closed start.kinds) :
    Exact ElseClosed Nonterminal.forStatement.rule.rest (forRest fuel keyword) start :=
  match fuel with
  | 0 => .exhausted
  | fuel + 1 => by
    refine .expect closed .symbol fun _ stop closed => ?_
    refine .bind closed (firstClause_exact fuel stop closed) ?_ fun _ _ => trivial
    refine fun _ stop _ closed => .gather [.maybe (symbol .expression), sign .semicolon] ?_
    refine .bind closed (conditionClause_exact fuel stop closed) ?_ fun _ _ => trivial
    refine fun _ stop _ closed => .gather [.maybe (symbol .expression), sign .rightParen] ?_
    refine .bind closed (lastClause_exact fuel stop closed) ?_ fun _ _ => trivial
    intro last stop _ closed
    refine .bind closed (statement_exact fuel stop closed) ?_ fun _ closed => closed.last
    exact fun body stop _ _ => .look rfl (.look rfl .pure)
termination_by structural fuel

end

theorem program_exact (fuel : Nat) (before : Array (Stmt Place)) (start : Progress)
    (closed : Closed start.kinds) :
    Exact (Avoids (· ≠ .eof)) (inOrder [.many (symbol .declaration)]) (program fuel before) start :=
  match fuel with
  | 0 => .exhausted
  | fuel + 1 => by
    refine .look rfl ?_
    split
    next ended =>
      have ended : start.here = .eof := Cursor.atEnd_iff.mp ended
      exact .done .pure declaration_opens (not_declarationStarts (.inr (.inl ended)))
    next inside =>
      have inside : start.here ≠ .eof := mt Cursor.atEnd_iff.mpr inside
      refine .more (.bind closed (declaration_exact fuel start closed) ?_ ?_) ?_
      · intro found stop _ closed
        cases found with
        | none => exact program_exact fuel before stop closed
        | some stmt => exact program_exact fuel _ stop closed
      · intro behind avoids
        have closing : TokenKind.eof ≠ .keyword .elseWord := by simp
        exact declarations_fit closing avoids.last
      · exact fun behind avoids => avoids.last _ inside
termination_by structural fuel

theorem program_stops_at_end (fuel : Nat) (before : Array (Stmt Place)) {start stop : Progress}
    {value : Program} (ran : program fuel before start = .ok value stop) : stop.here = .eof := by
  induction fuel generalizing before start with
  | zero => cases ran
  | succ fuel ih =>
    rcases program_cases ran with ⟨ended, -, rfl⟩ | ⟨-, found, middle, -, rest⟩
    · exact ended
    · exact ih _ rest

end Parser

namespace Grammar

/-- Some program begins with these kinds. -/
def Viable (kinds : List TokenKind) : Prop :=
  ∃ rest, kinds ++ rest ∈ (Form.symbol .program).language

theorem Viable.of_append {front back : List TokenKind} (viable : Viable (front ++ back)) :
    Viable front := by
  obtain ⟨rest, derived⟩ := viable
  exact ⟨back ++ rest, by rwa [← List.append_assoc]⟩

/-- The first token with which the tokens up to it begin no program. -/
structure FirstWrong (tokens : List Token) (index : Nat) : Prop where
  inside : index < tokens.length
  before : ∀ earlier < index, Viable ((tokens.take (earlier + 1)).map Token.kind)
  wrong : ¬ Viable ((tokens.take (index + 1)).map Token.kind)

theorem FirstWrong.of_split {read later : List Token} {token : Token}
    (viable : Viable (read.map Token.kind)) (wrong : ¬ Viable ((read ++ [token]).map Token.kind)) :
    FirstWrong (read ++ token :: later) read.length := by
  have upTo : (read ++ token :: later).take (read.length + 1) = read ++ [token] := by
    simp [List.take_append]
  refine ⟨by simp, fun earlier before => ?_, upTo ▸ wrong⟩
  rw [List.take_append_of_le_length before]
  rw [← List.take_append_drop (earlier + 1) read, List.map_append] at viable
  exact viable.of_append

theorem program_language : (Form.symbol .program).language =
    (Form.inOrder [.many (.symbol .declaration)]).language *
      (Form.inOrder [.one (· = .eof) ⟨_, rfl⟩]).language :=
  (Form.language_symbol _).trans (Form.language_foldr [_] _)

theorem derived_program {phrase : List TokenKind}
    (derived : phrase ∈ (Form.inOrder [.many (.symbol .declaration)]).language) :
    phrase ++ [.eof] ∈ (Form.symbol .program).language := by
  have ending : (Form.inOrder [.one (· = .eof) ⟨_, rfl⟩]).Derives ([.eof] ++ []) :=
    .next (.one rfl) .nothing
  rw [program_language]
  exact Language.append_mem_mul derived ending

theorem not_viable {read : List TokenKind} {next : TokenKind} (wrong : Wrong
    (Form.Avoids (· ≠ .eof)) (Form.inOrder [.many (.symbol .declaration)]) read next) :
    ¬ Viable (read ++ [next]) := by
  rintro ⟨rest, derived⟩
  rw [program_language, List.append_assoc] at derived
  refine wrong.never _ ?_ rest derived
  intro kind other later member
  obtain ⟨_, _, same, holds⟩ := (Form.Opens.next .one) _ member
  obtain ⟨rfl, -⟩ := List.cons.inj same
  exact other holds

end Grammar

namespace Parsed
open Grammar Form Lox.Parser

/-- What is wrong with the tokens, apart from lists that are too long. -/
def faults (parsed : Parsed) : List ParseError :=
  parsed.errors.filter fun error => error.code ≠ .tooManyEntries

theorem derived_or_troubled {tokens : List Token} (closed : Closed (tokens.map Token.kind)) :
    (tokens.map Token.kind ∈ (symbol .program).language ∧ (ofTokens tokens).faults = []) ∨
      ∃ left, Troubled (Avoids (· ≠ .eof)) (inOrder [.many (symbol .declaration)]) tokens left
        (ofTokens tokens).faults := by
  have stands : (start tokens).kinds = tokens.map Token.kind :=
    start_kinds (by simpa using closed.ne_nil)
  have whole : (start tokens).tokens = tokens := by
    cases tokens with
    | nil => exact absurd rfl closed.ne_nil
    | cons first rest => rfl
  obtain ⟨value, stop, ran, same⟩ := ofTokens_eq closed
  have reports : (ofTokens tokens).faults = stop.faults := by rw [same]; rfl
  have judges := program_exact (budget tokens) #[] (start tokens) (stands ▸ closed)
  unfold Exact at judges
  rw [ran] at judges
  rcases judges with ⟨read, split, clean, finished⟩ | ⟨reported, come, troubled⟩
  · have ended : stop.kinds = .eof :: stop.cursor.ahead.map Token.kind :=
      congrArg (· :: _) (program_stops_at_end _ _ ran)
    rw [whole] at split
    rw [split, List.map_append, ← Progress.kinds_eq] at closed
    have closing := closed.of_append (by simp [ended])
    rw [ended] at closing
    rw [reports, split, List.map_append, ← Progress.kinds_eq, ended, closing.eof_last]
    exact .inl ⟨derived_program finished.derived, clean⟩
  · have come : stop.faults = reported := come
    rw [whole, ← come, ← reports] at troubled
    exact .inr ⟨_, troubled⟩

/-- Where the tokens are no program, whatever is reported comes from the first wrong token and those
behind it, and that token is reported first. Only an `=` may be reported later, or not at all. -/
theorem faults_start_at_first_wrong_token {tokens : List Token}
    (closed : Closed (tokens.map Token.kind))
    (underived : tokens.map Token.kind ∉ (Form.symbol .program).language) :
    ∃ index, FirstWrong tokens index ∧
      (∀ error ∈ (ofTokens tokens).faults,
        ∃ place token, index ≤ place ∧ tokens[place]? = some token ∧ error.At token) ∧
      ∃ token, tokens[index]? = some token ∧ (token.kind ≠ .symbol .equal →
        ∃ error, (ofTokens tokens).faults.head? = some error ∧ error.At token) := by
  rcases derived_or_troubled closed with ⟨derived, -⟩ | ⟨_, troubled⟩
  · exact absurd derived underived
  obtain ⟨read, token, later, split, wrong, -, located, first⟩ := troubled
  have viable : Viable (read.map Token.kind) := by
    obtain ⟨rest, derived⟩ := wrong.begun
    exact ⟨rest ++ [.eof], by rw [← List.append_assoc]; exact derived_program derived⟩
  have wrong : ¬ Viable ((read ++ [token]).map Token.kind) := by
    rw [List.map_append]
    exact not_viable wrong
  refine ⟨read.length, split ▸ .of_split viable wrong, fun error member => ?_, token, ?_, ?_⟩
  · obtain ⟨found, inside, here⟩ := located error member
    obtain ⟨offset, stands⟩ := List.mem_iff_getElem?.mp inside
    refine ⟨read.length + offset, found, by omega, ?_, here⟩
    rwa [split, List.getElem?_append_right (by omega), Nat.add_sub_cancel_left]
  · simp [split]
  · intro other
    obtain ⟨error, rest, come, here⟩ := first other
    exact ⟨error, by rw [come]; rfl, here⟩

/-- Whatever the grammar derives is read without a fault. -/
theorem no_faults_of_derived {tokens : List Token} (closed : Closed (tokens.map Token.kind))
    (derived : tokens.map Token.kind ∈ (Form.symbol .program).language) :
    (ofTokens tokens).faults = [] := by
  rcases derived_or_troubled closed with ⟨-, clean⟩ | ⟨_, troubled⟩
  · exact clean
  obtain ⟨read, token, later, rfl, wrong, -⟩ := troubled
  have viable : Viable (read.map Token.kind ++ [token.kind]) := by
    refine ⟨later.map Token.kind, ?_⟩
    simpa using derived
  exact absurd viable (not_viable wrong)

/-- An operand is missing in front of a semicolon. -/
theorem faults_start_at_missing_operand :
    let kinds : List TokenKind := [.keyword .printWord, .identifier "a", .symbol .plus,
      .symbol .semicolon, .symbol .rightParen, .eof]
    let tokens := kinds.map fun kind => Token.mk kind "" 1 (.point 0)
    Closed (tokens.map Token.kind) ∧ tokens.map Token.kind ∉ (Form.symbol .program).language ∧
      ∃ index, FirstWrong tokens index ∧
        (∀ error ∈ (ofTokens tokens).faults,
          ∃ place token, index ≤ place ∧ tokens[place]? = some token ∧ error.At token) ∧
        ∃ token, tokens[index]? = some token ∧ (token.kind ≠ .symbol .equal →
          ∃ error, (ofTokens tokens).faults.head? = some error ∧ error.At token) := by
  intro kinds tokens
  have inside : TokenKind.eof ∉ kinds.dropLast := by decide
  have closed : Closed (tokens.map Token.kind) := closed_append_eof inside
  have faulty : (ofTokens tokens).faults ≠ [] := by decide +kernel
  have underived := fun derived => faulty (no_faults_of_derived closed derived)
  exact ⟨closed, underived, faults_start_at_first_wrong_token closed underived⟩

end Parsed
end Lox
