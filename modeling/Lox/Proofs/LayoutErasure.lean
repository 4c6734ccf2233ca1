import Lox.Proofs.ParserSteps
import Lox.Proofs.PlaceErasure

/-! Parsing depends on where tokens stand only in the places that it writes down. Tokens without
places parse to the same program and the same errors, without theirs. -/

namespace Lox

def Token.plain (token : Token) : Token := { token with line := 0, span := .nowhere }

def ParseError.plain (error : ParseError) : ParseError := { error with line := 0, span := .nowhere }

def Cursor.plain (cursor : Cursor) : Cursor :=
  ⟨cursor.previous.plain, cursor.current.plain, cursor.ahead.map Token.plain⟩

def Progress.plain (progress : Progress) : Progress :=
  ⟨progress.cursor.plain, progress.errors.map ParseError.plain⟩

def Halt.plain : Halt → Halt
  | .failed error => .failed error.plain
  | .exhausted => .exhausted

theorem Expr.place_map {α β : Type} (f : α → β) (expr : Expr α) :
    (expr.map f).place = f expr.place := by
  cases expr <;> rfl

@[simp] theorem Expr.plain_place (expr : Expr Place) : expr.plain.place = .unknown :=
  place_map _ expr

@[simp] theorem Stmt.plain_place (stmt : Stmt Place) : stmt.plain.place = .unknown := by
  cases stmt <;> rfl

theorem Token.plain_leaf? (token : Token) : token.plain.leaf? = token.leaf?.map Expr.plain := by
  obtain ⟨kind, lexeme, line, span⟩ := token
  cases kind with
  | keyword word => cases word <;> rfl
  | symbol | identifier | string | number | eof => rfl

theorem Joint.plain_join (line : Nat) (left right : Expr Place) (joint : Joint) :
    (joint.join line left right).plain = joint.join 0 left.plain right.plain := by
  cases joint <;> simp only [join, Expr.plain_place] <;> rfl

theorem Stmt.plain_forLoop (place : Place) (first : Option (Stmt Place)) (condition : Expr Place)
    (last : Option (Expr Place)) (span : Span) (body : Stmt Place) :
    (forLoop place first condition last span body).plain =
      forLoop .unknown (first.map Stmt.plain) condition.plain (last.map Expr.plain) .nowhere
        body.plain := by
  cases first <;> cases last <;>
    simp [forLoop, Stmt.plain, Stmt.map, Stmt.mapAll, Expr.plain, Expr.place_map, Place.unknown]

namespace Cursor

@[simp] theorem atEnd_plain (cursor : Cursor) : cursor.plain.atEnd = cursor.atEnd := rfl

@[simp] theorem check_plain (cursor : Cursor) (kind : TokenKind) :
    cursor.plain.check kind = cursor.check kind := rfl

@[simp] theorem errorHere_plain (cursor : Cursor) (code : Code) (message : String) :
    cursor.plain.errorHere code message = (cursor.errorHere code message).plain := rfl

theorem advance_plain (cursor : Cursor) : cursor.plain.advance = cursor.advance.plain := by
  rw [advance, advance, atEnd_plain, apply_ite plain]
  congr 1
  obtain ⟨previous, current, ahead⟩ := cursor
  cases ahead <;> rfl

theorem skip_plain (previous current : Token) (ahead : List Token) :
    skip previous.plain current.plain (ahead.map Token.plain) =
      (skip previous current ahead).plain := by
  fun_induction skip previous current ahead with
  | case1 previous current ahead cursor stops =>
    rw [skip.eq_def]
    exact if_pos stops
  | case2 previous current cursor goesOn =>
    rw [skip.eq_def]
    exact if_neg goesOn
  | case3 previous current next ahead cursor goesOn ih =>
    rw [skip.eq_def]
    exact (if_neg goesOn).trans ih

theorem synchronize_plain (cursor : Cursor) :
    cursor.plain.synchronize = cursor.synchronize.plain := by
  simp only [synchronize, advance_plain]
  exact skip_plain _ _ _

end Cursor

namespace Parser

variable {α β γ δ : Type}

/-- What a parser gives, without places. -/
def stripped (strip : α → β) : EStateM.Result Halt Progress α → EStateM.Result Halt Progress β
  | .ok value progress => .ok (strip value) progress.plain
  | .error halt progress => .error halt.plain progress.plain

/-- The second parser does without places what the first does. -/
def Strips (strip : α → β) (parser : Parser α) (plain : Parser β) : Prop :=
  ∀ progress, plain progress.plain = stripped strip (parser progress)

namespace Strips

variable {strip : α → β} {parser : Parser α} {plain : Parser β}

theorem pure {value : α} {value' : β} (same : strip value = value') :
    Strips strip (Pure.pure value) (Pure.pure value') :=
  fun progress => congrArg (EStateM.Result.ok · progress.plain) same.symm

theorem exhausted : Strips strip (throw .exhausted) (throw .exhausted) := fun _ => rfl

theorem bind {strip' : γ → δ} {next : α → Parser γ} {next' : β → Parser δ}
    (first : Strips strip parser plain)
    (goesOn : ∀ value, Strips strip' (next value) (next' (strip value))) :
    Strips strip' (parser >>= next) (plain >>= next') := by
  intro progress
  have before := first progress
  cases ran : parser progress with
  | error halt middle =>
    rw [ran] at before
    rw [Sequencing.bind_error ran, Sequencing.bind_error before]
    rfl
  | ok value middle =>
    rw [ran] at before
    rw [Sequencing.bind_ok ran, Sequencing.bind_ok before]
    exact goesOn value middle

theorem map {f : α → γ} {f' : β → δ} {strip' : γ → δ} (strips : Strips strip parser plain)
    (same : ∀ value, strip' (f value) = f' (strip value)) :
    Strips strip' (f <$> parser) (f' <$> plain) := by
  rw [map_eq_pure_bind, map_eq_pure_bind]
  exact strips.bind fun value => .pure (same value)

theorem current : Strips Token.plain current current := fun _ => rfl

theorem check (kind : TokenKind) : Strips id (check kind) (check kind) := fun _ => rfl

theorem atEnd : Strips id atEnd atEnd := fun _ => rfl

theorem advance : Strips id advance advance := by
  intro ⟨cursor, errors⟩
  simp only [Parser.advance, Progress.plain, Cursor.advance_plain]
  rfl

theorem eat (kind : TokenKind) : Strips id (eat kind) (eat kind) := by
  intro ⟨cursor, errors⟩
  simp only [Parser.eat, Cursor.eat, Progress.plain, Cursor.check_plain, Cursor.advance_plain]
  cases cursor.check kind <;> rfl

theorem expect (kind : TokenKind) (message : String) :
    Strips Token.plain (expect kind message) (expect kind message) := by
  intro ⟨cursor, errors⟩
  simp only [Parser.expect, attempt, Cursor.expect, Progress.plain, Cursor.check_plain,
    Cursor.advance_plain]
  cases cursor.check kind <;> rfl

theorem expectName (message : String) : Strips id (expectName message) (expectName message) := by
  intro ⟨⟨previous, here, ahead⟩, errors⟩
  simp only [Parser.expectName, attempt, Cursor.expectName, Progress.plain, Cursor.advance_plain]
  have kind : (Cursor.plain ⟨previous, here, ahead⟩).current.kind = here.kind := rfl
  rw [kind]
  cases here.kind <;> rfl

theorem failHere (code : Code) (message : String) :
    Strips strip (failHere code message) (failHere code message) := fun _ => rfl

theorem report (error : ParseError) : Strips id (report error) (report error.plain) := by
  intro progress
  simp [Parser.report, stripped, Progress.plain]

theorem reportHere (code : Code) (message : String) :
    Strips id (reportHere code message) (reportHere code message) := by
  intro progress
  simp [Parser.reportHere, stripped, Progress.plain]

theorem placeFrom (start : Token) :
    Strips (fun _ => .unknown) (placeFrom start) (placeFrom start.plain) := fun _ => rfl

theorem spanFrom (start : Span) :
    Strips (fun _ => .nowhere) (spanFrom start) (spanFrom .nowhere) := fun _ => rfl

/-- A parser that looks at the tokens before it goes on. -/
theorem choose {test : Parser Bool} {yes no : Parser α} {yes' no' : Parser β}
    (looks : Strips id test test) (taken : Strips strip yes yes') (other : Strips strip no no') :
    Strips strip (test >>= fun holds => if holds then yes else no)
      (test >>= fun holds => if holds then yes' else no') := by
  refine looks.bind fun holds => ?_
  cases holds with
  | true => exact taken
  | false => exact other

/-- The rest of a parser stands behind both of its branches. -/
theorem rest {test : Parser Bool} {yes no : Parser α} {yes' no' : Parser β} {strip' : γ → δ}
    {next : α → Parser γ} {next' : β → Parser δ}
    (first : Strips strip (test >>= fun holds => if holds then yes else no)
      (test >>= fun holds => if holds then yes' else no'))
    (goesOn : ∀ value, Strips strip' (next value) (next' (strip value))) :
    Strips strip' (test >>= fun holds => if holds then yes >>= next else no >>= next)
      (test >>= fun holds => if holds then yes' >>= next' else no' >>= next') := by
  rw [if_then_rest, if_then_rest]
  exact first.bind goesOn

theorem warn {condition : Prop} [Decidable condition] (code : Code) (message : String)
    (goesOn : Strips strip parser plain) :
    Strips strip (if condition then Parser.reportHere code message >>= fun _ => parser else parser)
      (if condition then Parser.reportHere code message >>= fun _ => plain else plain) := by
  split
  · exact (reportHere code message).bind fun _ => goesOn
  · exact goesOn

theorem recover (strips : Strips strip parser plain) :
    Strips (Option.map strip) (recover parser) (recover plain) := by
  intro progress
  have before := strips progress
  simp only [Parser.recover, before]
  cases parser progress with
  | ok value stop => rfl
  | error halt stop =>
    cases halt with
    | exhausted => rfl
    | failed error =>
      simp [stripped, Halt.plain, Progress.plain, Cursor.synchronize_plain]

end Strips

mutual

theorem expression_strips (fuel : Nat) : Strips Expr.plain (expression fuel) (expression fuel) :=
  match fuel with
  | 0 => .exhausted
  | fuel + 1 => by
    refine (chain_strips fuel Level.all).bind fun target => Strips.current.bind fun equals => ?_
    refine .choose (.eat _) ((expression_strips fuel).bind fun value => ?_) (.pure rfl)
    have kept : Strips Expr.plain
        (report (.ofToken equals .invalidTarget "invalid assignment target") >>= fun _ => pure value)
        (report (.ofToken equals.plain .invalidTarget "invalid assignment target") >>= fun _ =>
          pure value.plain) :=
      (Strips.report _).bind fun _ => .pure rfl
    cases target with
    | name place label =>
      refine .pure ?_
      rw [Expr.plain_place]
      rfl
    | literal | grouping | unary | binary | logical | assign | call => exact kept
termination_by structural fuel

theorem chain_strips (fuel : Nat) (levels : List Level) :
    Strips Expr.plain (chain fuel levels) (chain fuel levels) :=
  match fuel, levels with
  | 0, _ => .exhausted
  | fuel + 1, [] => unary_strips fuel
  | fuel + 1, level :: tighter =>
    (chain_strips fuel tighter).bind fun left => chainRest_strips fuel level tighter left
termination_by structural fuel

theorem chainRest_strips (fuel : Nat) (level : Level) (tighter : List Level) (left : Expr Place) :
    Strips Expr.plain (chainRest fuel level tighter left)
      (chainRest fuel level tighter left.plain) :=
  match fuel with
  | 0 => .exhausted
  | fuel + 1 => by
    refine Strips.current.bind fun token => ?_
    have kind : token.plain.kind = token.kind := rfl
    rw [kind]
    split
    · exact .pure rfl
    · refine Strips.advance.bind fun _ => (chain_strips fuel tighter).bind fun right => ?_
      have further := chainRest_strips fuel level tighter
      have joined := Joint.plain_join token.line left right
      exact joined _ ▸ further _
termination_by structural fuel

theorem unary_strips (fuel : Nat) : Strips Expr.plain (unary fuel) (unary fuel) :=
  match fuel with
  | 0 => .exhausted
  | fuel + 1 => by
    refine Strips.current.bind fun token => ?_
    have kind : token.plain.kind = token.kind := rfl
    rw [kind]
    split
    · refine Strips.advance.bind fun _ => (unary_strips fuel).bind fun operand => .pure ?_
      rw [Expr.plain_place]
      rfl
    · exact (primary_strips fuel).bind fun callee => calls_strips fuel callee
termination_by structural fuel

theorem calls_strips (fuel : Nat) (callee : Expr Place) :
    Strips Expr.plain (calls fuel callee) (calls fuel callee.plain) :=
  match fuel with
  | 0 => .exhausted
  | fuel + 1 => by
    have some := arguments_strips fuel #[]
    rw [Array.map_empty] at some
    have passed : Strips (List.map Expr.plain)
        (check (.symbol .rightParen) >>= fun found => if found then pure [] else arguments fuel #[])
        (check (.symbol .rightParen) >>= fun found =>
          if found then pure [] else arguments fuel #[]) :=
      .choose (.check _) (.pure rfl) some
    refine .choose (.eat _) (.rest passed fun trees => ?_) (.pure rfl)
    refine (Strips.expect _ _).bind fun close => ?_
    have further := calls_strips fuel
      (.call ⟨close.line, callee.place.span.merge close.span⟩ callee trees)
    rw [Expr.plain, Expr.map, Expr.mapAll_plain] at further
    rw [Expr.plain_place]
    exact further
termination_by structural fuel

theorem arguments_strips (fuel : Nat) (before : Array (Expr Place)) :
    Strips (List.map Expr.plain) (arguments fuel before)
      (arguments fuel (before.map Expr.plain)) :=
  match fuel with
  | 0 => .exhausted
  | fuel + 1 => by
    unfold arguments
    rw [Array.size_map]
    refine .warn _ _ ((expression_strips fuel).bind fun argument => ?_)
    rw [← Array.map_push]
    exact .choose (.eat _) (arguments_strips fuel _) (.pure (by simp))
termination_by structural fuel

theorem primary_strips (fuel : Nat) : Strips Expr.plain (primary fuel) (primary fuel) :=
  match fuel with
  | 0 => .exhausted
  | fuel + 1 => by
    refine Strips.current.bind fun token => .choose (.eat _) ?_ ?_
    · refine (expression_strips fuel).bind fun inner => ?_
      exact (Strips.expect _ _).bind fun close => .pure rfl
    · rw [token.plain_leaf?]
      cases token.leaf? with
      | none => exact .failHere _ _
      | some leaf => exact Strips.advance.bind fun _ => .pure rfl
termination_by structural fuel

end

theorem optional_strips (closing : TokenKind) (fuel : Nat) : Strips (Option.map Expr.plain)
    (check closing >>= fun found => if found then pure none else some <$> expression fuel)
    (check closing >>= fun found => if found then pure none else some <$> expression fuel) :=
  .choose (.check _) (.pure rfl) ((expression_strips fuel).map fun _ => rfl)

section
variable (fuel : Nat) (keyword : Token)

theorem declareRest_strips :
    Strips Stmt.plain (declareRest fuel keyword) (declareRest fuel keyword.plain) := by
  refine (Strips.expectName _).bind fun name => ?_
  have initial : Strips (Option.map Expr.plain)
      (eat (.symbol .equal) >>= fun eaten => if eaten then some <$> expression fuel else pure none)
      (eat (.symbol .equal) >>= fun eaten =>
        if eaten then some <$> expression fuel else pure none) :=
    .choose (.eat _) ((expression_strips fuel).map fun _ => rfl) (.pure rfl)
  refine .rest initial fun value => (Strips.expect _ _).bind fun _ => ?_
  exact (Strips.placeFrom keyword).bind fun place => .pure rfl

theorem printRest_strips :
    Strips Stmt.plain (printRest fuel keyword) (printRest fuel keyword.plain) := by
  refine (expression_strips fuel).bind fun value => (Strips.expect _ _).bind fun _ => ?_
  exact (Strips.placeFrom keyword).bind fun place => .pure rfl

theorem returnRest_strips :
    Strips Stmt.plain (returnRest fuel keyword) (returnRest fuel keyword.plain) := by
  refine .rest (optional_strips _ fuel) fun value => (Strips.expect _ _).bind fun _ => ?_
  exact (Strips.placeFrom keyword).bind fun place => .pure rfl

theorem breakRest_strips : Strips Stmt.plain (breakRest keyword) (breakRest keyword.plain) :=
  (Strips.expect _ _).bind fun _ => (Strips.placeFrom keyword).bind fun _ => .pure rfl

theorem continueRest_strips :
    Strips Stmt.plain (continueRest keyword) (continueRest keyword.plain) :=
  (Strips.expect _ _).bind fun _ => (Strips.placeFrom keyword).bind fun _ => .pure rfl

theorem expressionStatement_strips :
    Strips Stmt.plain (expressionStatement fuel) (expressionStatement fuel) := by
  refine (expression_strips fuel).bind fun expr => (Strips.expect _ _).bind fun _ => ?_
  rw [Expr.plain_place]
  exact (Strips.spanFrom _).bind fun span => .pure rfl

theorem firstClause_strips :
    Strips (Option.map Stmt.plain) (firstClause fuel) (firstClause fuel) := by
  refine Strips.current.bind fun token => .choose (.eat _) (.pure rfl) (.choose (.eat _) ?_ ?_)
  · exact (declareRest_strips fuel token).map fun _ => rfl
  · exact (expressionStatement_strips fuel).map fun _ => rfl

theorem conditionClause_strips :
    Strips Expr.plain (conditionClause fuel) (conditionClause fuel) := by
  refine .rest (optional_strips _ fuel) fun condition => (Strips.expect _ _).bind fun close => ?_
  cases condition <;> exact .pure rfl

theorem lastClause_strips :
    Strips (Option.map Expr.plain) (lastClause fuel) (lastClause fuel) :=
  .rest (optional_strips _ fuel) fun _ => (Strips.expect _ _).bind fun _ => .pure rfl

end

theorem parameters_strips (fuel : Nat) (before : Array String) :
    Strips id (parameters fuel before) (parameters fuel before) :=
  match fuel with
  | 0 => .exhausted
  | fuel + 1 => by
    refine .warn _ _ ((Strips.expectName _).bind fun name => ?_)
    exact .choose (.eat _) (parameters_strips fuel _) (.pure rfl)
termination_by structural fuel

mutual

theorem declaration_strips (fuel : Nat) :
    Strips (Option.map Stmt.plain) (declaration fuel) (declaration fuel) :=
  match fuel with
  | 0 => .exhausted
  | fuel + 1 => by
    refine .recover (Strips.current.bind fun keyword => ?_)
    refine .choose (.eat _) (declareRest_strips fuel keyword) ?_
    exact .choose (.eat _) (functionRest_strips fuel keyword) (statement_strips fuel)
termination_by structural fuel

theorem functionRest_strips (fuel : Nat) (keyword : Token) :
    Strips Stmt.plain (functionRest fuel keyword) (functionRest fuel keyword.plain) :=
  match fuel with
  | 0 => .exhausted
  | fuel + 1 => by
    refine (Strips.expectName _).bind fun name => (Strips.expect _ _).bind fun _ => ?_
    have named : Strips id
        (check (.symbol .rightParen) >>= fun found => if found then pure [] else parameters fuel #[])
        (check (.symbol .rightParen) >>= fun found =>
          if found then pure [] else parameters fuel #[]) :=
      .choose (.check _) (.pure rfl) (parameters_strips fuel #[])
    refine .rest named fun params => (Strips.expect _ _).bind fun _ => ?_
    have inner := blockRest_strips fuel #[]
    rw [Array.map_empty] at inner
    refine (Strips.expect _ _).bind fun _ => inner.bind fun body => ?_
    refine (Strips.placeFrom keyword).bind fun place => .pure ?_
    rw [Stmt.plain, Stmt.map, Stmt.mapAll_plain]
    rfl
termination_by structural fuel

theorem statement_strips (fuel : Nat) : Strips Stmt.plain (statement fuel) (statement fuel) :=
  match fuel with
  | 0 => .exhausted
  | fuel + 1 => by
    refine Strips.current.bind fun keyword => ?_
    have kind : keyword.plain.kind = keyword.kind := rfl
    rw [kind]
    split <;> try refine Strips.advance.bind fun _ => ?_
    · exact forRest_strips fuel keyword
    · exact ifRest_strips fuel keyword
    · exact printRest_strips fuel keyword
    · exact returnRest_strips fuel keyword
    · exact whileRest_strips fuel keyword
    · exact breakRest_strips keyword
    · exact continueRest_strips keyword
    · have inner := blockRest_strips fuel #[]
      rw [Array.map_empty] at inner
      refine inner.bind fun body => ?_
      refine (Strips.placeFrom keyword).bind fun place => .pure ?_
      rw [Stmt.plain, Stmt.map, Stmt.mapAll_plain]
    · exact expressionStatement_strips fuel
termination_by structural fuel

theorem blockRest_strips (fuel : Nat) (before : Array (Stmt Place)) :
    Strips (List.map Stmt.plain) (blockRest fuel before)
      (blockRest fuel (before.map Stmt.plain)) :=
  match fuel with
  | 0 => .exhausted
  | fuel + 1 => by
    refine (Strips.check _).bind fun closing => Strips.atEnd.bind fun ended => ?_
    simp only [id_eq]
    split
    · exact (Strips.expect _ _).bind fun _ => .pure Array.toList_map.symm
    · refine (declaration_strips fuel).bind fun found => ?_
      cases found with
      | none => exact blockRest_strips fuel before
      | some stmt =>
        have further := blockRest_strips fuel (before.push stmt)
        rw [Array.map_push] at further
        exact further
termination_by structural fuel

theorem ifRest_strips (fuel : Nat) (keyword : Token) :
    Strips Stmt.plain (ifRest fuel keyword) (ifRest fuel keyword.plain) :=
  match fuel with
  | 0 => .exhausted
  | fuel + 1 => by
    refine (Strips.expect _ _).bind fun _ => (expression_strips fuel).bind fun condition => ?_
    refine (Strips.expect _ _).bind fun _ => (statement_strips fuel).bind fun body => ?_
    refine .choose (.eat _) ((statement_strips fuel).bind fun other => ?_) ?_
    · exact (Strips.placeFrom keyword).bind fun place => .pure rfl
    · exact (Strips.placeFrom keyword).bind fun place => .pure rfl
termination_by structural fuel

theorem whileRest_strips (fuel : Nat) (keyword : Token) :
    Strips Stmt.plain (whileRest fuel keyword) (whileRest fuel keyword.plain) :=
  match fuel with
  | 0 => .exhausted
  | fuel + 1 => by
    refine (Strips.expect _ _).bind fun _ => (expression_strips fuel).bind fun condition => ?_
    refine (Strips.expect _ _).bind fun _ => (statement_strips fuel).bind fun body => ?_
    exact (Strips.placeFrom keyword).bind fun place => .pure rfl
termination_by structural fuel

theorem forRest_strips (fuel : Nat) (keyword : Token) :
    Strips Stmt.plain (forRest fuel keyword) (forRest fuel keyword.plain) :=
  match fuel with
  | 0 => .exhausted
  | fuel + 1 => by
    refine (Strips.expect _ _).bind fun _ => (firstClause_strips fuel).bind fun first => ?_
    refine (conditionClause_strips fuel).bind fun condition => ?_
    refine (lastClause_strips fuel).bind fun last => (statement_strips fuel).bind fun body => ?_
    rw [Stmt.plain_place]
    refine (Strips.spanFrom _).bind fun span => (Strips.placeFrom keyword).bind fun place => ?_
    exact .pure (Stmt.plain_forLoop place first condition last span body)
termination_by structural fuel

end

theorem program_strips (fuel : Nat) (before : Array (Stmt Place)) :
    Strips (List.map Stmt.plain) (program fuel before) (program fuel (before.map Stmt.plain)) := by
  induction fuel generalizing before with
  | zero => exact .exhausted
  | succ fuel ih =>
    refine .choose .atEnd (.pure Array.toList_map.symm) ((declaration_strips fuel).bind fun found => ?_)
    cases found with
    | none => exact ih before
    | some stmt =>
      have further := ih (before.push stmt)
      rw [Array.map_push] at further
      exact further

end Parser

def Parsed.plain (parsed : Parsed) : Parsed :=
  ⟨parsed.program.map Stmt.plain, parsed.errors.map ParseError.plain⟩

/-- Tokens without places parse to the same, without places. -/
theorem Parsed.ofTokens_plain (tokens : List Token) :
    ofTokens (tokens.map Token.plain) = (ofTokens tokens).plain := by
  cases tokens with
  | nil => rfl
  | cons first rest =>
    have budget : budget ((first :: rest).map Token.plain) = budget (first :: rest) := by
      rw [Parsed.budget, Parsed.budget, List.length_map]
    have start : Progress.plain ⟨.ofTokens (first :: rest), #[]⟩ =
        ⟨.ofTokens ((first :: rest).map Token.plain), #[]⟩ := congrArg (Progress.mk _) Array.map_empty
    have strips := Parser.program_strips (Parsed.budget (first :: rest)) #[]
      ⟨.ofTokens (first :: rest), #[]⟩
    rw [Array.map_empty, start] at strips
    rw [ofTokens, ofTokens, budget, strips]
    cases Parser.program (Parsed.budget (first :: rest)) #[] ⟨.ofTokens (first :: rest), #[]⟩ with
    | ok program stop => exact congrArg (Parsed.mk _) Array.toList_map
    | error halt stop => exact congrArg (Parsed.mk _) Array.toList_map

end Lox
