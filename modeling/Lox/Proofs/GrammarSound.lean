import Lox.Proofs.GrammarTables
import Lox.Proofs.ParserSteps

/-! Whatever a parser reads without an error, the grammar derives. Errors are only ever added, so a
run that ends with as many as it began with has met none, and each of its steps has met none. -/

namespace Lox.Parser
open Grammar

variable {α β : Type}

/-- A run that reports no error reads a phrase that is in the relation with its value and with what
is left behind it. -/
def Reads (parser : Parser α) (relation : α → List TokenKind → List TokenKind → Prop) : Prop :=
  ∀ start, match parser start with
  | .ok value stop => start.errors.size ≤ stop.errors.size ∧
      (Closed start.kinds → stop.errors.size = start.errors.size → Closed stop.kinds ∧
        ∃ phrase, start.kinds = phrase ++ stop.kinds ∧ relation value phrase stop.kinds)
  | .error _ stop => start.errors.size ≤ stop.errors.size

namespace Reads

variable {parser : Parser α} {next : α → Parser β}
  {relation : α → List TokenKind → List TokenKind → Prop}
  {final : β → List TokenKind → List TokenKind → Prop}

theorem pure {value : α} (holds : ∀ rest, relation value [] rest) :
    Reads (Pure.pure value) relation := by
  intro start
  exact ⟨Nat.le_refl _, fun closed _ => ⟨closed, [], rfl, holds start.kinds⟩⟩

theorem fail {code : Code} {message : String} : Reads (failHere code message) relation :=
  fun _ => Nat.le_refl _

theorem exhausted : Reads (throw .exhausted) relation := fun _ => Nat.le_refl _

/-- What comes last only has to be in the relation together with everything read before. -/
theorem bind (first : Reads parser relation) (goesOn : ∀ value, Reads (next value)
    fun result back rest => ∀ front, relation value front (back ++ rest) →
      final result (front ++ back) rest) : Reads (parser >>= next) final := by
  intro start
  have before := first start
  cases ran : parser start with
  | error halt stop =>
    rw [ran] at before
    rw [Sequencing.bind_error ran]
    exact before
  | ok value middle =>
    rw [ran] at before
    rw [Sequencing.bind_ok ran]
    have after := goesOn value middle
    cases last : next value middle with
    | error halt stop =>
      rw [last] at after
      exact Nat.le_trans before.1 after
    | ok result stop =>
      rw [last] at after
      refine ⟨Nat.le_trans before.1 after.1, fun closed clean => ?_⟩
      have grown := before.1
      have grown' := after.1
      obtain ⟨closed, front, stands, read⟩ := before.2 closed (by omega)
      obtain ⟨closed, back, stands', further⟩ := after.2 closed (by omega)
      refine ⟨closed, front ++ back, ?_, further front (stands' ▸ read)⟩
      rw [stands, stands', List.append_assoc]

theorem mono {weaker : α → List TokenKind → List TokenKind → Prop} (reads : Reads parser relation)
    (implies : ∀ value phrase rest, relation value phrase rest → weaker value phrase rest) :
    Reads parser weaker := by
  intro start
  have read := reads start
  cases ran : parser start with
  | error halt stop =>
    rw [ran] at read
    exact read
  | ok value stop =>
    rw [ran] at read
    refine ⟨read.1, fun closed clean => ?_⟩
    obtain ⟨closed, phrase, stands, holds⟩ := read.2 closed clean
    exact ⟨closed, phrase, stands, implies value phrase stop.kinds holds⟩

theorem map {f : α → β} (reads : Reads parser fun value => final (f value)) :
    Reads (f <$> parser) final := by
  rw [map_eq_pure_bind]
  exact .bind reads fun value => .pure fun rest front holds => by simpa using holds

/-- A parser that only looks, for something the grammar does not speak of. -/
theorem skip (looks : ∀ start, ∃ value, parser start = .ok value start)
    (goesOn : ∀ value, Reads (next value) final) : Reads (parser >>= next) final := by
  intro start
  obtain ⟨value, seen⟩ := looks start
  rw [Sequencing.bind_ok seen]
  exact goesOn value start

/-- A step that reports nothing only has to be looked at where parsing stands. -/
theorem of_step (step : ∀ start, match parser start with
    | .ok value stop => stop.errors = start.errors ∧ (Closed start.kinds → Closed stop.kinds ∧
        ∃ phrase, start.kinds = phrase ++ stop.kinds ∧ relation value phrase stop.kinds)
    | .error _ stop => stop.errors = start.errors) : Reads parser relation := by
  intro start
  have taken := step start
  cases ran : parser start with
  | error halt stop =>
    rw [ran] at taken
    exact Nat.le_of_eq (congrArg Array.size taken).symm
  | ok value stop =>
    rw [ran] at taken
    exact ⟨Nat.le_of_eq (congrArg Array.size taken.1).symm, fun closed _ => taken.2 closed⟩

theorem current {next : Token → Parser β} (goesOn : ∀ token, Reads (next token)
    fun result phrase rest => (phrase ++ rest).head? = some token.kind → final result phrase rest) :
    Reads (current >>= next) final := by
  have seen : Reads Parser.current fun token phrase rest =>
      phrase = [] ∧ rest.head? = some token.kind :=
    of_step fun start => ⟨rfl, fun closed => ⟨closed, [], rfl, rfl, rfl⟩⟩
  refine .bind seen fun token => (goesOn token).mono ?_
  intro result phrase rest holds _ read
  obtain ⟨rfl, stands⟩ := read
  exact holds stands

theorem atEnd {yes no : Parser β}
    (taken : Reads yes fun result phrase rest =>
      (phrase ++ rest).head? = some .eof → final result phrase rest)
    (other : Reads no final) : Reads (atEnd >>= fun ended => if ended then yes else no) final := by
  have seen : Reads Parser.atEnd fun ended phrase rest =>
      phrase = [] ∧ (ended = true → rest.head? = some .eof) :=
    of_step fun start => ⟨rfl, fun closed => ⟨closed, [], rfl, rfl, fun ended =>
      congrArg some (Cursor.atEnd_iff.mp ended)⟩⟩
  refine .bind seen fun ended => ?_
  split
  next holds =>
    apply taken.mono
    intro result phrase rest holds' _ read
    obtain ⟨rfl, stands⟩ := read
    exact holds' (stands holds)
  next =>
    apply other.mono
    intro result phrase rest holds _ read
    obtain ⟨rfl, -⟩ := read
    exact holds

theorem check {kind : TokenKind} {yes no : Parser β} (fixed : kind.Fixed)
    (taken : Reads yes fun result phrase rest =>
      (phrase ++ rest).head? = some kind → final result phrase rest)
    (other : Reads no final) :
    Reads (check kind >>= fun found => if found then yes else no) final := by
  have seen : Reads (Parser.check kind) fun found phrase rest =>
      phrase = [] ∧ (found = true → rest.head? = some kind) :=
    of_step fun start => ⟨rfl, fun closed => ⟨closed, [], rfl, rfl, fun found =>
      congrArg some (fixed.same_iff.mp found)⟩⟩
  refine .bind seen fun found => ?_
  split
  next holds =>
    apply taken.mono
    intro result phrase rest holds' _ read
    obtain ⟨rfl, stands⟩ := read
    exact holds' (stands holds)
  next =>
    apply other.mono
    intro result phrase rest holds _ read
    obtain ⟨rfl, -⟩ := read
    exact holds

/-- A step over a token that has been looked at. -/
theorem advance {token : Token} {next : Unit → Parser β} (moving : token.kind ≠ .eof)
    (goesOn : Reads (next ()) fun result phrase rest => final result (token.kind :: phrase) rest) :
    Reads (advance >>= next) fun result phrase rest =>
      (phrase ++ rest).head? = some token.kind → final result phrase rest := by
  have stepped : Reads Parser.advance fun _ phrase rest =>
      (phrase ++ rest).head? = some token.kind → phrase = [token.kind] := by
    refine of_step fun start => ⟨rfl, fun closed => ?_⟩
    by_cases last : start.here = .eof
    · have ended : start.cursor.advance.kinds = start.kinds :=
        congrArg Cursor.kinds (if_pos (Cursor.atEnd_iff.mpr last))
      refine ⟨Eq.mpr (congrArg Closed ended) closed, [], ended.symm, fun stands => ?_⟩
      have same : start.kinds.head? = some token.kind := ended ▸ stands
      exact absurd ((Option.some.inj same).symm.trans last) moving
    · obtain ⟨stands, closed⟩ := Progress.kinds_advanced closed last
      refine ⟨closed, [start.here], stands, fun same => ?_⟩
      rw [Option.some.inj same]
  refine .bind stepped fun _ => goesOn.mono ?_
  intro result back rest holds front read stands
  obtain rfl := read (List.append_assoc .. ▸ stands)
  exact holds

private theorem advanced {start : Progress} {kind : TokenKind} (stands : start.here = kind)
    (moving : kind ≠ .eof) (closed : Closed start.kinds) : Closed start.advanced.kinds ∧
      ∃ phrase, start.kinds = phrase ++ start.advanced.kinds ∧ phrase = [kind] := by
  obtain ⟨read, closed⟩ := Progress.kinds_advanced closed (stands ▸ moving)
  exact ⟨closed, [kind], stands ▸ read, rfl⟩

theorem eat {kind : TokenKind} {yes no : Parser β} (fixed : kind.Fixed)
    (taken : Reads yes fun result phrase rest => final result (kind :: phrase) rest)
    (other : Reads no fun result phrase rest =>
      (phrase ++ rest).head? ≠ some kind → final result phrase rest) :
    Reads (eat kind >>= fun eaten => if eaten then yes else no) final := by
  have stepped : Reads (Parser.eat kind) fun eaten phrase rest =>
      if eaten then phrase = [kind] else phrase = [] ∧ rest.head? ≠ some kind := by
    refine of_step fun start => ?_
    by_cases stands : start.here = kind
    · rw [eat_taken fixed stands]
      exact ⟨rfl, fun closed => advanced stands fixed.ne_eof closed⟩
    · rw [eat_other fixed stands]
      exact ⟨rfl, fun closed => ⟨closed, [], rfl, rfl, fun same => stands (Option.some.inj same)⟩⟩
  refine .bind stepped fun eaten => ?_
  split
  next =>
    apply taken.mono
    rintro result phrase rest holds _ rfl
    exact holds
  next =>
    apply other.mono
    intro result phrase rest holds _ read
    obtain ⟨rfl, stands⟩ := read
    exact holds stands

theorem expect {kind : TokenKind} {message : String} {next : Token → Parser β} (fixed : kind.Fixed)
    (goesOn : ∀ token, Reads (next token) fun result phrase rest =>
      final result (kind :: phrase) rest) : Reads (expect kind message >>= next) final := by
  have stepped : Reads (Parser.expect kind message) fun _ phrase _ => phrase = [kind] := by
    refine of_step fun start => ?_
    by_cases stands : start.here = kind
    · rw [expect_taken fixed stands]
      exact ⟨rfl, fun closed => advanced stands fixed.ne_eof closed⟩
    · rw [expect_other fixed stands]
  refine .bind stepped fun token => (goesOn token).mono ?_
  rintro result phrase rest holds _ rfl
  exact holds

theorem expectName {message : String} {next : String → Parser β}
    (goesOn : ∀ name, Reads (next name) fun result phrase rest =>
      final result (.identifier name :: phrase) rest) :
    Reads (expectName message >>= next) final := by
  have stepped : Reads (Parser.expectName message) fun name phrase _ =>
      phrase = [.identifier name] := by
    refine of_step fun start => ?_
    by_cases named : ∃ name, start.here = .identifier name
    · obtain ⟨name, stands⟩ := named
      rw [expectName_taken stands]
      exact ⟨rfl, fun closed => advanced stands nofun closed⟩
    · rw [expectName_other (not_exists.mp named)]
  refine .bind stepped fun token => (goesOn token).mono ?_
  rintro result phrase rest holds _ rfl
  exact holds

theorem choose {test : Parser Bool} {yes no : Parser α}
    (first : Reads (test >>= fun holds => if holds then yes else no) relation)
    (goesOn : ∀ value, Reads (next value) fun result back rest => ∀ front,
      relation value front (back ++ rest) → final result (front ++ back) rest) :
    Reads (test >>= fun holds => if holds then yes >>= next else no >>= next) final := by
  rw [if_then_rest]
  exact .bind first goesOn

/-- What comes after an error does not count. -/
theorem reported {next : Unit → Parser α} {report : Parser Unit}
    (adds : ∀ start, ∃ error, report start = .ok () ⟨start.cursor, start.errors.push error⟩)
    (goesOn : Reads (next ()) relation) {other : α → List TokenKind → List TokenKind → Prop} :
    Reads (report >>= next) other := by
  intro start
  obtain ⟨error, added⟩ := adds start
  rw [Sequencing.bind_ok added]
  have after := goesOn ⟨start.cursor, start.errors.push error⟩
  cases ran : next () ⟨start.cursor, start.errors.push error⟩ with
  | error halt stop =>
    rw [ran] at after
    exact Nat.le_trans (by simp) after
  | ok value stop =>
    rw [ran] at after
    have grown := after.1
    simp only [Array.size_push] at grown
    exact ⟨by omega, fun _ clean => by omega⟩

theorem warn {condition : Prop} [Decidable condition] {code : Code} {message : String}
    (goesOn : Reads parser fun value phrase rest => ¬ condition → relation value phrase rest) :
    Reads (if condition then reportHere code message >>= fun _ => parser else parser) relation := by
  split
  next => exact .reported (fun _ => ⟨_, rfl⟩) goesOn
  next fails => exact goesOn.mono fun _ _ _ holds => holds fails

/-- Where parsing was taken up again there was an error. -/
theorem recover (reads : Reads parser relation) :
    Reads (recover parser) fun found phrase rest =>
      ∃ value, found = some value ∧ relation value phrase rest := by
  intro start
  have read := reads start
  unfold Parser.recover
  cases ran : parser start with
  | error halt stop =>
    rw [ran] at read
    cases halt with
    | exhausted => exact read
    | failed error =>
      refine ⟨Nat.le_trans read (by simp), fun _ clean => ?_⟩
      simp only [Array.size_push] at clean
      have grown : start.errors.size ≤ stop.errors.size := read
      omega
  | ok value stop =>
    rw [ran] at read
    refine ⟨read.1, fun closed clean => ?_⟩
    obtain ⟨closed, phrase, stands, holds⟩ := read.2 closed clean
    exact ⟨closed, phrase, stands, value, rfl, holds⟩

end Reads

mutual

theorem expression_reads (fuel : Nat) :
    Reads (expression fuel) fun tree phrase _ => Expression phrase tree.bare :=
  match fuel with
  | 0 => .exhausted
  | fuel + 1 => by
    refine .bind (chain_reads fuel Level.all) fun target => .current fun equals => .eat .symbol ?_ ?_
    · refine .bind (expression_reads fuel) fun value => ?_
      split
      next place label =>
        refine .pure fun rest back right _ front left => ?_
        obtain rfl := left.of_name
        simpa using Expression.assign right
      next =>
        have kept : Reads (pure value) fun _ _ _ => True := .pure fun _ => trivial
        exact .reported (fun _ => ⟨_, rfl⟩) kept
    · exact .pure fun rest _ _ front left => by simpa using Expression.operation left
termination_by structural fuel

theorem chain_reads (fuel : Nat) (levels : List Level) :
    Reads (chain fuel levels) fun tree phrase _ => Operation levels phrase tree.bare :=
  match fuel, levels with
  | 0, _ => .exhausted
  | fuel + 1, [] => (unary_reads fuel).mono fun _ _ _ => .operand
  | fuel + 1, level :: tighter => by
    refine .bind (chain_reads fuel tighter) fun left => ?_
    exact (chainRest_reads fuel level tighter left).mono fun _ _ _ joined front operand =>
      joined front (.single operand)
termination_by structural fuel

/-- What stands to the left has been read before. -/
theorem chainRest_reads (fuel : Nat) (level : Level) (tighter : List Level) (left : Expr Place) :
    Reads (chainRest fuel level tighter left) fun tree phrase _ => ∀ front,
      Operation (level :: tighter) front left.bare →
        Operation (level :: tighter) (front ++ phrase) tree.bare :=
  match fuel with
  | 0 => .exhausted
  | fuel + 1 => by
    refine .current fun token => ?_
    split
    next => exact .pure fun rest _ front operation => by simpa using operation
    next joint found =>
      have operator := operator_iff.mpr found
      refine .advance operator.ne_eof ?_
      refine .bind (chain_reads fuel tighter) fun right => ?_
      apply (chainRest_reads fuel level tighter _).mono
      intro tree phrase rest joined back operand front operation
      rw [Joint.bare_join] at joined
      simpa using joined _ (.join operation operator operand)
termination_by structural fuel

theorem unary_reads (fuel : Nat) :
    Reads (unary fuel) fun tree phrase _ => Unary phrase tree.bare :=
  match fuel with
  | 0 => .exhausted
  | fuel + 1 => by
    refine .current fun token => ?_
    split
    next operator found =>
      have sign := prefix_iff.mpr found
      refine .advance sign.ne_eof (.bind (unary_reads fuel) fun operand => ?_)
      exact .pure fun rest front derived => by simpa using Unary.prefixed sign derived
    next =>
      refine .bind (primary_reads fuel) fun callee => (calls_reads fuel callee).mono ?_
      intro tree phrase rest called front primary _
      exact .call (called front (.primary primary))
termination_by structural fuel

theorem calls_reads (fuel : Nat) (callee : Expr Place) :
    Reads (calls fuel callee) fun tree phrase _ => ∀ front, Call front callee.bare →
      Call (front ++ phrase) tree.bare :=
  match fuel with
  | 0 => .exhausted
  | fuel + 1 => by
    refine .eat .symbol ?_ (.pure fun rest _ front call => by simpa using call)
    have passed : Reads (check (.symbol .rightParen) >>= fun found =>
        if found then pure [] else arguments fuel #[]) fun trees phrase _ =>
          Arguments phrase (trees.map Expr.bare) ∧ trees.length ≤ entries := by
      refine .check .symbol (.pure fun rest _ => ⟨.none, Nat.zero_le _⟩) ?_
      apply (arguments_reads fuel #[]).mono
      intro _ phrase rest read
      obtain ⟨trees, rfl, list, few⟩ := read
      exact ⟨.some (by simpa using list), few⟩
    refine .choose passed fun arguments => .expect .symbol fun close => ?_
    apply (calls_reads fuel _).mono
    intro tree phrase rest called back read front call
    obtain ⟨passed, few⟩ := read
    rw [Expr.bare_call] at called
    simpa using called _ (.call call passed (by simpa using few))
termination_by structural fuel

theorem arguments_reads (fuel : Nat) (before : Array (Expr Place)) :
    Reads (arguments fuel before) fun all phrase _ => ∃ trees, all = before.toList ++ trees ∧
      ArgumentList phrase (trees.map Expr.bare) ∧ all.length ≤ entries :=
  match fuel with
  | 0 => .exhausted
  | fuel + 1 => by
    refine .warn (.bind (expression_reads fuel) fun argument => .eat .symbol ?_ ?_)
    · refine (arguments_reads fuel _).mono ?_
      intro _ back rest read front derived _
      obtain ⟨trees, rfl, list, few⟩ := read
      exact ⟨argument :: trees, by simp, .more derived list, few⟩
    · refine .pure fun rest _ front derived room => ?_
      refine ⟨[argument], by simp, by simpa using ArgumentList.last derived, ?_⟩
      simp only [maxEntries, entries, Array.toList_push, List.length_append, Array.length_toList,
        List.length_singleton] at room ⊢
      omega
termination_by structural fuel

theorem primary_reads (fuel : Nat) :
    Reads (primary fuel) fun tree phrase _ => Primary phrase tree.bare :=
  match fuel with
  | 0 => .exhausted
  | fuel + 1 => by
    refine .current fun token => .eat .symbol ?_ ?_
    · refine .bind (expression_reads fuel) fun inner => .expect .symbol fun close => ?_
      exact .pure fun rest front derived _ => by simpa using Primary.grouping derived
    · split
      next leaf found =>
        have derived := leaf_of_leaf? found
        have read : Reads (advance >>= fun _ => pure leaf) fun tree phrase rest =>
            (phrase ++ rest).head? = some token.kind → Primary phrase tree.bare :=
          .advance derived.ne_eof (.pure fun _ => .leaf derived)
        exact read.mono fun _ _ _ holds _ => holds
      next => exact .fail
termination_by structural fuel

end

/-- A statement in front of what is left, where no `else` is left over that could belong to it. -/
def Complete (stmt : Stmt Place) (phrase rest : List TokenKind) : Prop :=
  ∃ ending, Statement ending phrase stmt.bare ∧
    (ending = true → rest.head? ≠ some (.keyword .elseWord))

theorem Complete.of_closed {stmt : Stmt Place} {phrase rest : List TokenKind}
    (statement : Statement false phrase stmt.bare) : Complete stmt phrase rest :=
  ⟨false, statement, by simp⟩

theorem look_place {β : Type} {keyword : Token} {next : Place → Parser β}
    {final : β → List TokenKind → List TokenKind → Prop} (goesOn : ∀ place, Reads (next place) final) :
    Reads (placeFrom keyword >>= next) final :=
  .skip (fun _ => ⟨_, rfl⟩) goesOn

theorem optional_reads {closing : TokenKind} (fixed : closing.Fixed) (fuel : Nat) :
    Reads (check closing >>= fun found => if found then pure none else some <$> expression fuel)
      fun value phrase _ => Optional phrase (value.map Expr.bare) :=
  .check fixed (.pure fun _ _ => .none) (.map ((expression_reads fuel).mono fun _ _ _ => .some))

section
variable (fuel : Nat) (keyword : Token)

theorem declareRest_reads : Reads (declareRest fuel keyword) fun stmt phrase _ =>
    Variable (.keyword .varWord :: phrase) stmt.bare := by
  refine .expectName fun name => ?_
  have initial : Reads (eat (.symbol .equal) >>= fun eaten =>
      if eaten then some <$> expression fuel else pure none) fun value phrase _ =>
        Initial phrase (value.map Expr.bare) :=
    .eat .symbol (.map ((expression_reads fuel).mono fun _ _ _ => .some)) (.pure fun _ _ => .none)
  refine .choose initial fun value => .expect .symbol fun _ => look_place fun place => ?_
  exact .pure fun rest front derived => by simpa using Variable.declare derived

theorem printRest_reads : Reads (printRest fuel keyword) fun stmt phrase _ =>
    Statement false (.keyword .printWord :: phrase) stmt.bare := by
  refine .bind (expression_reads fuel) fun value => .expect .symbol fun _ => look_place fun place => ?_
  exact .pure fun rest front derived => by simpa using Statement.print derived

theorem returnRest_reads : Reads (returnRest fuel keyword) fun stmt phrase _ =>
    Statement false (.keyword .returnWord :: phrase) stmt.bare := by
  refine .choose (optional_reads .symbol fuel) fun value => .expect .symbol fun _ => ?_
  refine look_place fun place => .pure fun rest front derived => ?_
  simpa using Statement.returnValue derived

theorem breakRest_reads : Reads (breakRest keyword) fun stmt phrase _ =>
    Statement false (.keyword .breakWord :: phrase) stmt.bare :=
  .expect .symbol fun _ => look_place fun _ => .pure fun _ => .breakLoop

theorem continueRest_reads : Reads (continueRest keyword) fun stmt phrase _ =>
    Statement false (.keyword .continueWord :: phrase) stmt.bare :=
  .expect .symbol fun _ => look_place fun _ => .pure fun _ => .continueLoop

theorem expressionStatement_reads : Reads (expressionStatement fuel) fun stmt phrase _ =>
    ∃ front tree, phrase = front ++ [.symbol .semicolon] ∧ Expression front tree ∧
      stmt.bare = .expression () tree := by
  refine .bind (expression_reads fuel) fun expr => .expect .symbol fun _ => ?_
  refine .skip (fun _ => ⟨_, rfl⟩) fun span => .pure fun rest front derived => ?_
  exact ⟨front, expr.bare, by simp, derived, rfl⟩

theorem firstClause_reads : Reads (firstClause fuel) fun first phrase _ =>
    FirstClause phrase (first.map Stmt.bare) := by
  refine .skip (fun _ => ⟨_, rfl⟩) fun token => .eat .symbol (.pure fun _ => .none) ?_
  refine .eat .keyword ?_ ?_
  · exact .map ((declareRest_reads fuel token).mono fun _ _ _ declared _ => .declare declared)
  · refine .map ((expressionStatement_reads fuel).mono ?_)
    intro stmt _ rest read _ _
    obtain ⟨front, tree, rfl, derived, bare⟩ := read
    simpa [bare] using FirstClause.expression derived

theorem conditionClause_reads : Reads (conditionClause fuel) fun expr phrase _ =>
    ∃ front, ∃ condition : Option (Expr Place), ∃ close, phrase = front ++ [.symbol .semicolon] ∧
      Optional front (condition.map Expr.bare) ∧
        expr = condition.getD (.literal close (.bool true)) := by
  refine .choose (optional_reads .symbol fuel) fun condition => .expect .symbol fun close => ?_
  exact .pure fun rest front derived => ⟨front, condition, _, by simp, derived, rfl⟩

theorem lastClause_reads : Reads (lastClause fuel) fun last phrase _ =>
    ∃ front, phrase = front ++ [.symbol .rightParen] ∧ Optional front (last.map Expr.bare) := by
  refine .choose (optional_reads .symbol fuel) fun last => .expect .symbol fun close => ?_
  exact .pure fun rest front derived => ⟨front, by simp, derived⟩

end

theorem parameters_reads (fuel : Nat) (before : Array String) :
    Reads (parameters fuel before) fun all phrase _ => ∃ names, all = before.toList ++ names ∧
      NameList phrase names ∧ all.length ≤ entries :=
  match fuel with
  | 0 => .exhausted
  | fuel + 1 => by
    refine .warn (.expectName fun name => .eat .symbol ?_ ?_)
    · refine (parameters_reads fuel _).mono ?_
      intro _ back rest read _
      obtain ⟨names, rfl, list, few⟩ := read
      exact ⟨name :: names, by simp, .more list, few⟩
    · refine .pure fun rest _ room => ⟨[name], by simp, .last, ?_⟩
      simp only [maxEntries, entries, Array.toList_push, List.length_append, Array.length_toList,
        List.length_singleton] at room ⊢
      omega
termination_by structural fuel

mutual

theorem declaration_reads (fuel : Nat) : Reads (declaration fuel) fun found phrase _ =>
    ∃ stmt, found = some stmt ∧ Declaration phrase stmt.bare :=
  match fuel with
  | 0 => .exhausted
  | fuel + 1 => by
    refine .recover (.skip (fun _ => ⟨_, rfl⟩) fun keyword => .eat .keyword ?_ (.eat .keyword ?_ ?_))
    · exact (declareRest_reads fuel keyword).mono fun _ _ _ => .declare
    · exact (functionRest_reads fuel keyword).mono fun _ _ _ declared _ => declared
    · refine (statement_reads fuel).mono ?_
      intro stmt phrase rest read _ _
      obtain ⟨ending, derived, -⟩ := read
      exact .statement derived
termination_by structural fuel

theorem functionRest_reads (fuel : Nat) (keyword : Token) :
    Reads (functionRest fuel keyword) fun stmt phrase _ =>
      Declaration (.keyword .funWord :: phrase) stmt.bare :=
  match fuel with
  | 0 => .exhausted
  | fuel + 1 => by
    refine .expectName fun name => .expect .symbol fun _ => ?_
    have named : Reads (check (.symbol .rightParen) >>= fun found =>
        if found then pure [] else parameters fuel #[]) fun names phrase _ =>
          Parameters phrase names ∧ names.length ≤ entries := by
      refine .check .symbol (.pure fun rest _ => ⟨.none, Nat.zero_le _⟩) ?_
      apply (parameters_reads fuel #[]).mono
      intro _ phrase rest read
      obtain ⟨names, rfl, list, few⟩ := read
      exact ⟨.some list, few⟩
    refine .choose named fun params => .expect .symbol fun _ => .expect .symbol fun _ => ?_
    refine .bind (blockRest_reads fuel #[]) fun body => look_place fun place => .pure ?_
    intro rest _ read front before
    obtain ⟨_, back, rfl, rfl, declared⟩ := read
    obtain ⟨listed, few⟩ := before
    simpa using Declaration.function listed few declared
termination_by structural fuel

theorem statement_reads (fuel : Nat) : Reads (statement fuel) Complete :=
  match fuel with
  | 0 => .exhausted
  | fuel + 1 => by
    refine .current fun keyword => ?_
    split <;> try rename_i stands; refine .advance (by simp [stands]) ?_; rw [stands]
    · exact forRest_reads fuel keyword
    · exact ifRest_reads fuel keyword
    · exact (printRest_reads fuel keyword).mono fun _ _ _ => .of_closed
    · exact (returnRest_reads fuel keyword).mono fun _ _ _ => .of_closed
    · exact whileRest_reads fuel keyword
    · exact (breakRest_reads keyword).mono fun _ _ _ => .of_closed
    · exact (continueRest_reads keyword).mono fun _ _ _ => .of_closed
    · refine .bind (blockRest_reads fuel #[]) fun body => look_place fun place => .pure ?_
      intro rest _ read
      obtain ⟨_, front, rfl, rfl, declared⟩ := read
      exact .of_closed (by simpa using Statement.block declared)
    · refine (expressionStatement_reads fuel).mono ?_
      intro stmt _ rest read _
      obtain ⟨front, tree, rfl, derived, bare⟩ := read
      exact .of_closed (bare ▸ .expression derived)
termination_by structural fuel

theorem blockRest_reads (fuel : Nat) (before : Array (Stmt Place)) :
    Reads (blockRest fuel before) fun all phrase _ => ∃ stmts front, all = before.toList ++ stmts ∧
      phrase = front ++ [.symbol .rightBrace] ∧ Declarations front (stmts.map Stmt.bare) :=
  match fuel with
  | 0 => .exhausted
  | fuel + 1 => by
    refine .skip (fun _ => ⟨_, rfl⟩) fun closing => .skip (fun _ => ⟨_, rfl⟩) fun ended => ?_
    split
    next => exact .expect .symbol fun _ => .pure fun rest => ⟨[], [], by simp, rfl, .nil⟩
    next =>
      refine .bind (declaration_reads fuel) fun found => ?_
      cases found with
      | none =>
        apply (blockRest_reads fuel before).mono
        intro _ back rest _ front read
        obtain ⟨_, impossible, _⟩ := read
        cases impossible
      | some stmt =>
        apply (blockRest_reads fuel _).mono
        intro _ _ rest read front before
        obtain ⟨stmts, back, rfl, rfl, declared⟩ := read
        obtain ⟨_, same, first⟩ := before
        cases same
        exact ⟨stmt :: stmts, front ++ back, by simp, by simp, .cons first declared⟩
termination_by structural fuel

theorem ifRest_reads (fuel : Nat) (keyword : Token) :
    Reads (ifRest fuel keyword) fun stmt phrase rest =>
      Complete stmt (.keyword .ifWord :: phrase) rest :=
  match fuel with
  | 0 => .exhausted
  | fuel + 1 => by
    refine .expect .symbol fun _ => .bind (expression_reads fuel) fun condition => ?_
    refine .expect .symbol fun _ => .bind (statement_reads fuel) fun body => .eat .keyword ?_ ?_
    · refine .bind (statement_reads fuel) fun other => look_place fun place => .pure ?_
      intro rest back read middle before front derived
      obtain ⟨ending, second, free⟩ := read
      obtain ⟨closed, first, taken⟩ := before
      -- The `else` that was read shows that the statement before it is not open.
      obtain rfl : closed = false := by
        cases closed with
        | false => rfl
        | true => exact absurd rfl (taken rfl)
      exact ⟨ending, by simpa using Statement.ifElse derived first second, free⟩
    · refine look_place fun place => .pure ?_
      intro rest free middle read front derived
      obtain ⟨ending, first, _⟩ := read
      exact ⟨true, by simpa using Statement.ifThen derived first, fun _ => free⟩
termination_by structural fuel

theorem whileRest_reads (fuel : Nat) (keyword : Token) :
    Reads (whileRest fuel keyword) fun stmt phrase rest =>
      Complete stmt (.keyword .whileWord :: phrase) rest :=
  match fuel with
  | 0 => .exhausted
  | fuel + 1 => by
    refine .expect .symbol fun _ => .bind (expression_reads fuel) fun condition => ?_
    refine .expect .symbol fun _ => .bind (statement_reads fuel) fun body => ?_
    refine look_place fun place => .pure ?_
    intro rest back read front derived
    obtain ⟨ending, statement, free⟩ := read
    exact ⟨ending, by simpa using Statement.whileLoop derived statement, free⟩
termination_by structural fuel

theorem forRest_reads (fuel : Nat) (keyword : Token) :
    Reads (forRest fuel keyword) fun stmt phrase rest =>
      Complete stmt (.keyword .forWord :: phrase) rest :=
  match fuel with
  | 0 => .exhausted
  | fuel + 1 => by
    refine .expect .symbol fun _ => .bind (firstClause_reads fuel) fun first => ?_
    refine .bind (conditionClause_reads fuel) fun condition => ?_
    refine .bind (lastClause_reads fuel) fun last => .bind (statement_reads fuel) fun body => ?_
    refine .skip (fun _ => ⟨_, rfl⟩) fun span => look_place fun place => .pure ?_
    intro rest back read _ middle _ before front begun
    obtain ⟨ending, statement, free⟩ := read
    obtain ⟨third, rfl, stepped⟩ := middle
    obtain ⟨second, tested, close, rfl, checked, rfl⟩ := before
    exact ⟨ending, by simpa using Statement.forLoop begun checked stepped statement, free⟩
termination_by structural fuel

end

theorem program_reads (fuel : Nat) (before : Array (Stmt Place)) :
    Reads (program fuel before) fun all phrase rest => ∃ stmts, all = before.toList ++ stmts ∧
      rest.head? = some .eof ∧ Declarations phrase (stmts.map Stmt.bare) :=
  match fuel with
  | 0 => .exhausted
  | fuel + 1 => by
    refine .atEnd (.pure fun rest stands => ⟨[], by simp, by simpa using stands, .nil⟩) ?_
    refine .bind (declaration_reads fuel) fun found => ?_
    cases found with
    | none =>
      apply (program_reads fuel before).mono
      intro _ back rest _ front read
      obtain ⟨_, impossible, _⟩ := read
      cases impossible
    | some stmt =>
      apply (program_reads fuel _).mono
      intro _ back rest read front before
      obtain ⟨stmts, rfl, ended, declared⟩ := read
      obtain ⟨_, same, first⟩ := before
      cases same
      exact ⟨stmt :: stmts, by simp, ended, .cons first declared⟩
termination_by structural fuel

end Lox.Parser
