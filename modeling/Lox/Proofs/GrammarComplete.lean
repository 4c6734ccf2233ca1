import Lox.Proofs.GrammarStarts
import Lox.Proofs.ParserSteps

/-! Whatever the grammar derives, parsers read in full and without an error, unless their budget is
used up. What follows a phrase must not be a token that the phrase could go on with. -/

namespace Lox.Parser
open Grammar

variable {α β : Type}

/-- Unless the budget is used up the parser reads up to what is to be left, and reports nothing. -/
def Accepts (parser : Parser α) (start : Progress) (accepted : α → Prop) (rest : List TokenKind) :
    Prop :=
  match parser start with
  | .ok value stop => accepted value ∧ stop.kinds = rest ∧ stop.errors = start.errors
  | .error (.failed _) _ => False
  | .error .exhausted _ => True

namespace Accepts

variable {parser : Parser α} {next : α → Parser β} {start : Progress} {accepted : α → Prop}
  {final : β → Prop} {middle rest : List TokenKind} {kind : TokenKind}

theorem of_ok {value : α} {stop : Progress} (ran : parser start = .ok value stop)
    (holds : accepted value) (left : stop.kinds = rest) (clean : stop.errors = start.errors) :
    Accepts parser start accepted rest := by
  simp only [Accepts, ran]
  exact ⟨holds, left, clean⟩

theorem pure {value : α} (holds : accepted value) (left : start.kinds = rest) :
    Accepts (Pure.pure value) start accepted rest :=
  of_ok rfl holds left rfl

theorem exhausted : Accepts (throw .exhausted) start accepted rest := trivial

theorem mono {weaker : α → Prop} (accepts : Accepts parser start accepted rest)
    (implies : ∀ value, accepted value → weaker value) : Accepts parser start weaker rest := by
  unfold Accepts at accepts ⊢
  split <;> rename_i ran <;> rw [ran] at accepts
  · exact ⟨implies _ accepts.1, accepts.2⟩
  · exact accepts
  · trivial

theorem bind (first : Accepts parser start accepted middle)
    (goesOn : ∀ value stop, accepted value → Progress.kinds stop = middle →
      Accepts (next value) stop final rest) : Accepts (parser >>= next) start final rest := by
  unfold Accepts at first
  split at first <;> rename_i ran
  · obtain ⟨holds, left, clean⟩ := first
    have further := goesOn _ _ holds left
    unfold Accepts at further ⊢
    rw [Sequencing.bind_ok ran]
    split <;> rename_i done <;> rw [done] at further
    · exact ⟨further.1, further.2.1, further.2.2.trans clean⟩
    · exact further
    · trivial
  · exact first.elim
  · unfold Accepts
    rw [Sequencing.bind_error ran]
    trivial

theorem map {f : α → β} (accepts : Accepts parser start (fun value => final (f value)) rest) :
    Accepts (f <$> parser) start final rest := by
  rw [map_eq_pure_bind]
  exact accepts.bind fun _ _ holds left => .pure holds left

/-- A parser that only looks. -/
theorem look {value : α} (seen : parser start = .ok value start)
    (goesOn : Accepts (next value) start final rest) : Accepts (parser >>= next) start final rest := by
  unfold Accepts at goesOn ⊢
  rwa [Sequencing.bind_ok seen]

theorem current {next : Token → Parser β} (stands : start.kinds = kind :: middle)
    (goesOn : ∀ token, token.kind = kind → Accepts (next token) start final rest) :
    Accepts (current >>= next) start final rest :=
  .look rfl (goesOn start.cursor.current (Progress.here_of_kinds stands))

private theorem moved (stands : start.kinds = kind :: middle) (other : kind ≠ .eof)
    (more : middle ≠ []) : start.advanced.kinds = middle :=
  Cursor.advance_kinds stands other more

theorem advance {next : Unit → Parser β} (stands : start.kinds = kind :: middle)
    (other : kind ≠ .eof) (more : middle ≠ [])
    (goesOn : ∀ stop, Progress.kinds stop = middle → Accepts (next ()) stop final rest) :
    Accepts (Parser.advance >>= next) start final rest := by
  have stepped : Accepts Parser.advance start (fun _ => True) middle :=
    of_ok rfl trivial (moved stands other more) rfl
  exact stepped.bind fun _ stop _ => goesOn stop

/-- The token parsing stands at decides how it goes on, and is passed. -/
theorem leading {next after : Token → Parser β} (stands : start.kinds = kind :: middle)
    (other : kind ≠ .eof) (more : middle ≠ [])
    (decided : ∀ token, token.kind = kind → next token = Parser.advance >>= fun _ => after token)
    (goesOn : ∀ token stop, Progress.kinds stop = middle → Accepts (after token) stop final rest) :
    Accepts (Parser.current >>= next) start final rest := by
  refine .current stands fun token same => ?_
  rw [decided token same]
  exact .advance stands other more (goesOn token)

theorem eat {yes no : Parser β} (fixed : kind.Fixed) (stands : start.kinds = kind :: middle)
    (more : middle ≠ [])
    (goesOn : ∀ stop, Progress.kinds stop = middle → Accepts yes stop final rest) :
    Accepts (Parser.eat kind >>= fun eaten => if eaten then yes else no) start final rest := by
  have stepped : Accepts (Parser.eat kind) start (· = true) middle :=
    of_ok (eat_taken fixed (Progress.here_of_kinds stands)) rfl
      (moved stands fixed.ne_eof more) rfl
  refine stepped.bind fun eaten stop taken left => ?_
  rw [if_pos taken]
  exact goesOn stop left

theorem eat_not {yes no : Parser β} (fixed : kind.Fixed) (other : start.here ≠ kind)
    (goesOn : Accepts no start final rest) :
    Accepts (Parser.eat kind >>= fun eaten => if eaten then yes else no) start final rest :=
  .look (eat_other fixed other) (by simpa using goesOn)

theorem check {yes no : Parser β} (fixed : kind.Fixed) (stands : start.here = kind)
    (goesOn : Accepts yes start final rest) :
    Accepts (Parser.check kind >>= fun found => if found then yes else no) start final rest := by
  refine .look rfl ?_
  rwa [if_pos (show start.cursor.check kind = true from fixed.same_iff.mpr stands)]

theorem check_not {yes no : Parser β} (fixed : kind.Fixed) (other : start.here ≠ kind)
    (goesOn : Accepts no start final rest) :
    Accepts (Parser.check kind >>= fun found => if found then yes else no) start final rest := by
  refine .look rfl ?_
  rwa [if_neg (show ¬ start.cursor.check kind = true from mt fixed.same_iff.mp other)]

theorem expect {message : String} {next : Token → Parser β} (fixed : kind.Fixed)
    (stands : start.kinds = kind :: middle) (more : middle ≠ [])
    (goesOn : ∀ token stop, Progress.kinds stop = middle → Accepts (next token) stop final rest) :
    Accepts (Parser.expect kind message >>= next) start final rest := by
  have stepped : Accepts (Parser.expect kind message) start (fun _ => True) middle :=
    of_ok (expect_taken fixed (Progress.here_of_kinds stands)) trivial
      (moved stands fixed.ne_eof more) rfl
  exact stepped.bind fun token stop _ => goesOn token stop

theorem expectName {name message : String} {next : String → Parser β}
    (stands : start.kinds = .identifier name :: middle) (more : middle ≠ [])
    (goesOn : ∀ stop, Progress.kinds stop = middle → Accepts (next name) stop final rest) :
    Accepts (Parser.expectName message >>= next) start final rest := by
  have stepped : Accepts (Parser.expectName message) start (· = name) middle :=
    of_ok (expectName_taken (Progress.here_of_kinds stands)) rfl (moved stands nofun more) rfl
  refine stepped.bind fun found stop same left => ?_
  rw [same]
  exact goesOn stop left

theorem choose {test : Parser Bool} {yes no : Parser α}
    (first : Accepts (test >>= fun holds => if holds then yes else no) start accepted middle)
    (goesOn : ∀ value stop, accepted value → Progress.kinds stop = middle →
      Accepts (next value) stop final rest) :
    Accepts (test >>= fun holds => if holds then yes >>= next else no >>= next) start final rest := by
  rw [if_then_rest]
  exact first.bind goesOn

theorem warn {condition : Prop} [Decidable condition] {code : Code} {message : String}
    (fails : ¬ condition) (goesOn : Accepts parser start accepted rest) :
    Accepts (if condition then reportHere code message >>= fun _ => parser else parser) start accepted
      rest := by
  rwa [if_neg fails]

theorem recover (accepts : Accepts parser start accepted rest) :
    Accepts (Parser.recover parser) start
      (fun found => ∃ value, found = some value ∧ accepted value) rest := by
  unfold Accepts Parser.recover at *
  split at accepts <;> rename_i ran <;> simp only [ran]
  · exact ⟨⟨_, rfl, accepts.1⟩, accepts.2⟩
  · exact accepts.elim

end Accepts

/-- What may follow operands that the levels join: no operator of these levels, and no arguments. -/
def Stops (levels : List Level) (rest : List TokenKind) : Prop :=
  ∃ kind more, rest = kind :: more ∧ kind ≠ .symbol .leftParen ∧
    ∀ level ∈ levels, level.joint? kind = none

/-- What follows an expression. -/
def Follows (rest : List TokenKind) : Prop :=
  ∃ sign more, rest = .symbol sign :: more ∧ sign ∈ [Symbol.semicolon, .rightParen, .comma]

theorem Stops.ne_nil {levels : List Level} {rest : List TokenKind} (stops : Stops levels rest) :
    rest ≠ [] := by
  obtain ⟨kind, more, rfl, -⟩ := stops
  exact List.cons_ne_nil kind more

theorem Stops.tighter {level : Level} {levels : List Level} {rest : List TokenKind}
    (stops : Stops (level :: levels) rest) : Stops levels rest := by
  obtain ⟨kind, more, same, called, other⟩ := stops
  exact ⟨kind, more, same, called, fun level inside => other level (List.mem_cons_of_mem _ inside)⟩

theorem Stops.of_operator {level : Level} {tighter : List Level} {kind : TokenKind} {joint : Joint}
    (operator : Operator level kind joint) (outside : level ∉ tighter) (rest : List TokenKind) :
    Stops tighter (kind :: rest) := by
  refine ⟨kind, rest, rfl, by cases operator <;> simp, fun other inside => ?_⟩
  cases found : other.joint? kind with
  | none => rfl
  | some second =>
    cases operator.level_unique (operator_iff.mpr found)
    exact absurd inside outside

/-- Looser operators behind an operand end it. -/
theorem Stops.of_joins {level : Level} {tighter : List Level} {head tree : Expr Unit}
    {phrase rest : List TokenKind} (joins : Joins level tighter head phrase tree)
    (outside : level ∉ tighter) (stops : Stops (level :: tighter) rest) :
    Stops tighter (phrase ++ rest) := by
  cases joins with
  | done => exact stops.tighter
  | more operator _ _ => exact .of_operator operator outside _

theorem Stops.of_equal (rest : List TokenKind) : Stops Level.all (.symbol .equal :: rest) :=
  ⟨_, rest, rfl, by simp, by decide⟩

theorem Follows.stops {rest : List TokenKind} (follows : Follows rest) : Stops Level.all rest := by
  obtain ⟨sign, more, rfl, among⟩ := follows
  refine ⟨_, more, rfl, ?_, ?_⟩
  · rintro ⟨⟩
    simp at among
  · simp only [List.mem_cons, List.not_mem_nil, or_false] at among
    rcases among with rfl | rfl | rfl <;> decide

theorem Follows.ne_equal {rest : List TokenKind} (follows : Follows rest) {start : Progress}
    (stands : start.kinds = rest) : start.here ≠ .symbol .equal := by
  obtain ⟨sign, more, rfl, among⟩ := follows
  rw [Progress.here_of_kinds stands]
  rintro ⟨⟩
  simp at among

theorem follows_semicolon (rest : List TokenKind) : Follows (.symbol .semicolon :: rest) :=
  ⟨_, rest, rfl, by simp⟩

theorem follows_rightParen (rest : List TokenKind) : Follows (.symbol .rightParen :: rest) :=
  ⟨_, rest, rfl, by simp⟩

theorem follows_comma (rest : List TokenKind) : Follows (.symbol .comma :: rest) :=
  ⟨_, rest, rfl, by simp⟩

theorem eq_name_of_bare {expr : Expr Place} {name : String} (bare : expr.bare = .name () name) :
    ∃ place, expr = .name place name := by
  cases expr <;> cases bare
  exact ⟨_, rfl⟩

/-- Parsing stands at a token that begins a phrase, and so at no other. -/
theorem here_ne {starts : TokenKind → Prop} {phrase rest : List TokenKind} {start : Progress}
    {kind : TokenKind} (begins : Begins starts phrase) (stands : start.kinds = phrase ++ rest)
    (other : ¬ starts kind) : start.here ≠ kind := by
  obtain ⟨first, more, rfl, begun⟩ := begins
  rw [Progress.here_of_kinds stands]
  rintro rfl
  exact other begun

mutual

theorem expression_accepts (fuel : Nat) {start : Progress} {phrase rest : List TokenKind}
    {tree : Expr Unit} (derived : Expression phrase tree) (stands : start.kinds = phrase ++ rest)
    (follows : Follows rest) : Accepts (expression fuel) start (·.bare = tree) rest :=
  match fuel with
  | 0 => .exhausted
  | fuel + 1 => by
    cases derived with
    | @assign phrase value name derived =>
      have target : Accepts (chain fuel Level.all) start _ _ :=
        chain_accepts fuel (.name name Level.all) (by decide) stands (.of_equal (phrase ++ rest))
      refine target.bind fun target stop bare stands => .current stands fun equals _ => ?_
      refine .eat .symbol stands (by simp [follows.stops.ne_nil]) fun stop stands => ?_
      apply (expression_accepts fuel derived stands follows).bind
      intro value stop same stands
      obtain ⟨place, rfl⟩ := eq_name_of_bare bare
      exact .pure (by simp [same]) stands
    | operation operation =>
      apply (chain_accepts fuel operation (by decide) stands follows.stops).bind
      intro target stop bare stands
      refine .look rfl (.eat_not .symbol (follows.ne_equal stands) ?_)
      exact .pure bare stands
termination_by structural fuel

theorem chain_accepts (fuel : Nat) {start : Progress} {levels : List Level}
    {phrase rest : List TokenKind} {tree : Expr Unit} (derived : Operation levels phrase tree)
    (distinct : levels.Nodup) (stands : start.kinds = phrase ++ rest) (stops : Stops levels rest) :
    Accepts (chain fuel levels) start (·.bare = tree) rest :=
  match fuel, levels with
  | 0, _ => .exhausted
  | fuel + 1, [] => by
    cases derived with
    | operand operand => exact unary_accepts fuel operand stands stops
  | fuel + 1, level :: tighter => by
    obtain ⟨front, back, head, rfl, operand, joins⟩ := derived.split
    obtain ⟨outside, distinct'⟩ := List.nodup_cons.mp distinct
    rw [List.append_assoc] at stands
    apply (chain_accepts fuel operand distinct' stands (.of_joins joins outside stops)).bind
    intro left stop bare stands
    exact chainRest_accepts fuel joins left bare distinct stands stops
termination_by structural fuel

theorem chainRest_accepts (fuel : Nat) {start : Progress} {level : Level} {tighter : List Level}
    {phrase rest : List TokenKind} {head tree : Expr Unit}
    (joins : Joins level tighter head phrase tree) (left : Expr Place) (bare : left.bare = head)
    (distinct : (level :: tighter).Nodup) (stands : start.kinds = phrase ++ rest)
    (stops : Stops (level :: tighter) rest) :
    Accepts (chainRest fuel level tighter left) start (·.bare = tree) rest :=
  match fuel with
  | 0 => .exhausted
  | fuel + 1 => by
    cases joins with
    | done =>
      obtain ⟨kind, more, rfl, -, other⟩ := stops
      refine .current stands fun token same => ?_
      rw [same, other level List.mem_cons_self]
      exact .pure bare stands
    | @more kind joint operand right _ back _ operator derived joins =>
      refine .leading stands operator.ne_eof (by simp [stops.ne_nil])
        (fun _ same => by rw [same, operator_iff.mp operator]) fun token stop stands => ?_
      obtain ⟨outside, distinct'⟩ := List.nodup_cons.mp distinct
      have stands := stands.trans (List.append_assoc ..)
      apply (chain_accepts fuel derived distinct' stands (.of_joins joins outside stops)).bind
      intro second stop same stands
      exact chainRest_accepts fuel joins _ (by simp [bare, same]) distinct stands stops
termination_by structural fuel

theorem unary_accepts (fuel : Nat) {start : Progress} {phrase rest : List TokenKind}
    {tree : Expr Unit} (derived : Unary phrase tree) (stands : start.kinds = phrase ++ rest)
    (stops : Stops [] rest) : Accepts (unary fuel) start (·.bare = tree) rest :=
  match fuel with
  | 0 => .exhausted
  | fuel + 1 => by
    cases derived with
    | prefixed sign operand =>
      refine .leading stands sign.ne_eof (by simp [stops.ne_nil])
        (fun _ same => by rw [same, prefix_iff.mp sign]) fun token stop stands => ?_
      apply (unary_accepts fuel operand stands stops).bind
      intro operand stop bare stands
      exact .pure (by simp [bare]) stands
    | call call =>
      obtain ⟨front, back, head, rfl, primary, called⟩ := call.split
      rw [List.append_assoc] at stands
      obtain ⟨kind, more, rfl, unsigned⟩ := primary.begins_unsigned
      refine .current stands fun token same => ?_
      rw [same, unsigned]
      have ahead : back ++ rest ≠ [] := by simp [stops.ne_nil]
      apply (primary_accepts fuel primary stands ahead).bind
      intro callee stop bare stands
      exact calls_accepts fuel called callee bare stands stops
termination_by structural fuel

theorem calls_accepts (fuel : Nat) {start : Progress} {phrase rest : List TokenKind}
    {head tree : Expr Unit} (called : CalledWith head phrase tree) (callee : Expr Place)
    (bare : callee.bare = head) (stands : start.kinds = phrase ++ rest) (stops : Stops [] rest) :
    Accepts (calls fuel callee) start (·.bare = tree) rest :=
  match fuel with
  | 0 => .exhausted
  | fuel + 1 => by
    cases called with
    | done =>
      obtain ⟨kind, more, rfl, other, -⟩ := stops
      have elsewhere : start.here ≠ .symbol .leftParen := by
        rwa [Progress.here_of_kinds stands]
      exact .eat_not .symbol elsewhere (.pure bare stands)
    | @more phrase trees _ back _ passed few called =>
      refine .eat .symbol stands (by simp) fun stop stands => ?_
      have stands : stop.kinds = phrase ++ .symbol .rightParen :: (back ++ rest) := by
        simpa using stands
      have read : Accepts (check (.symbol .rightParen) >>= fun found =>
          if found then pure [] else arguments fuel #[]) stop (·.map Expr.bare = trees)
          (.symbol .rightParen :: (back ++ rest)) := by
        cases passed with
        | none => exact .check .symbol (Progress.here_of_kinds stands) (.pure rfl stands)
        | some list =>
          refine .check_not .symbol (here_ne list.begins stands nofun) ?_
          exact (arguments_accepts fuel list #[] (by simpa using few) stands).mono
            fun _ same => by simpa using same
      refine .choose read fun arguments stop same stands => ?_
      refine .expect .symbol stands (by simp [stops.ne_nil]) fun close stop stands => ?_
      exact calls_accepts fuel called _ (by simp [bare, same]) stands stops
termination_by structural fuel

theorem arguments_accepts (fuel : Nat) {start : Progress} {phrase rest : List TokenKind}
    {trees : List (Expr Unit)} (list : ArgumentList phrase trees) (before : Array (Expr Place))
    (few : before.size + trees.length ≤ entries)
    (stands : start.kinds = phrase ++ .symbol .rightParen :: rest) :
    Accepts (arguments fuel before) start
      (fun all => all.map Expr.bare = before.toList.map Expr.bare ++ trees)
      (.symbol .rightParen :: rest) :=
  match fuel with
  | 0 => .exhausted
  | fuel + 1 => by
    cases list with
    | last derived =>
      refine .warn (Nat.not_le.mpr few) ?_
      apply (expression_accepts fuel derived stands (follows_rightParen rest)).bind
      intro argument stop bare stands
      have elsewhere : stop.here ≠ .symbol .comma := by
        simp [Progress.here_of_kinds stands]
      exact .eat_not .symbol elsewhere (.pure (by simp [bare]) stands)
    | @more front tree back trees derived list =>
      simp only [List.length_cons] at few
      have room : ¬ maxEntries ≤ before.size := by
        simp only [maxEntries, entries] at few ⊢
        omega
      have stands : start.kinds = front ++ .symbol .comma :: (back ++ .symbol .rightParen :: rest) := by
        simpa using stands
      refine .warn room ?_
      apply (expression_accepts fuel derived stands (follows_comma _)).bind
      intro argument stop bare stands
      refine .eat .symbol stands (by simp) fun stop stands => ?_
      have few : (before.push argument).size + trees.length ≤ entries := by
        rw [Array.size_push]
        omega
      refine (arguments_accepts fuel list (before.push argument) few stands).mono fun all same => ?_
      simpa [bare] using same
termination_by structural fuel

theorem primary_accepts (fuel : Nat) {start : Progress} {phrase rest : List TokenKind}
    {tree : Expr Unit} (derived : Primary phrase tree) (stands : start.kinds = phrase ++ rest)
    (more : rest ≠ []) : Accepts (primary fuel) start (·.bare = tree) rest :=
  match fuel with
  | 0 => .exhausted
  | fuel + 1 => by
    cases derived with
    | @leaf kind _ leaf =>
      refine .current stands fun token same => ?_
      have elsewhere : start.here ≠ .symbol .leftParen := by
        rw [Progress.here_of_kinds stands]
        rintro rfl
        cases leaf
      refine .eat_not .symbol elsewhere ?_
      have derived := leaf
      rw [← same] at derived
      obtain ⟨found, known, bare⟩ := leaf?_of_leaf derived
      rw [known]
      exact .advance stands leaf.ne_eof more fun stop stands => .pure bare stands
    | @grouping inner _ derived =>
      refine .current stands fun token same => .eat .symbol stands (by simp) fun stop stands => ?_
      have stands : stop.kinds = inner ++ .symbol .rightParen :: rest := by simpa using stands
      apply (expression_accepts fuel derived stands (follows_rightParen rest)).bind
      intro value stop bare stands
      refine .expect .symbol stands more fun close stop stands => ?_
      exact .pure (by simp [bare]) stands
termination_by structural fuel

end

theorem optional_accepts (fuel : Nat) {start : Progress} {sign : Symbol}
    {phrase rest : List TokenKind} {tree : Option (Expr Unit)} (derived : Optional phrase tree)
    (stands : start.kinds = phrase ++ .symbol sign :: rest) (follows : Follows (.symbol sign :: rest)) :
    Accepts (check (.symbol sign) >>= fun found =>
      if found then pure none else some <$> expression fuel) start (·.map Expr.bare = tree)
      (.symbol sign :: rest) := by
  cases derived with
  | none => exact .check .symbol (Progress.here_of_kinds stands) (.pure rfl stands)
  | some derived =>
    have other : ¬ Starts (.symbol sign) := by
      obtain ⟨_, _, ⟨⟩, among⟩ := follows
      simp only [List.mem_cons, List.not_mem_nil, or_false] at among
      rcases among with rfl | rfl | rfl <;> exact nofun
    refine .check_not .symbol (here_ne derived.begins stands other) (.map ?_)
    exact (expression_accepts fuel derived stands follows).mono fun _ bare => by simp [bare]

/-- The place of a node does not matter to its tree. -/
theorem pure_place {start : Progress} {keyword : Token} {node : Place → Stmt Place}
    {tree : Stmt Unit} {rest : List TokenKind} (bare : ∀ place, (node place).bare = tree)
    (stands : start.kinds = rest) :
    Accepts (placeFrom keyword >>= fun place => pure (node place)) start (·.bare = tree) rest :=
  .look rfl (.pure (bare _) stands)

section
variable (fuel : Nat) (keyword : Token) {start : Progress} {phrase rest : List TokenKind}
  (more : rest ≠ [])
include more

theorem declareRest_accepts {tree : Stmt Unit} (derived : Variable (.keyword .varWord :: phrase) tree)
    (stands : start.kinds = phrase ++ rest) :
    Accepts (declareRest fuel keyword) start (·.bare = tree) rest := by
  cases derived with
  | @declare inner value name derived =>
    refine .expectName stands (by simp) fun stop stands => ?_
    have stands : stop.kinds = inner ++ .symbol .semicolon :: rest := by simpa using stands
    have initial : Accepts (eat (.symbol .equal) >>= fun eaten =>
        if eaten then some <$> expression fuel else pure none) stop (·.map Expr.bare = value)
        (.symbol .semicolon :: rest) := by
      cases derived with
      | none =>
        have elsewhere : stop.here ≠ .symbol .equal := by simp [Progress.here_of_kinds stands]
        exact .eat_not .symbol elsewhere (.pure rfl stands)
      | some derived =>
        refine .eat .symbol stands (by simp) fun stop stands => .map ?_
        exact (expression_accepts fuel derived stands (follows_semicolon rest)).mono
          fun _ bare => by simp [bare]
    refine .choose initial fun value stop bare stands => ?_
    refine .expect .symbol stands more fun _ stop stands => ?_
    exact pure_place (fun _ => by simp [bare]) stands

theorem printRest_accepts {tree : Expr Unit} (derived : Expression phrase tree)
    (stands : start.kinds = phrase ++ .symbol .semicolon :: rest) :
    Accepts (printRest fuel keyword) start (·.bare = .print () tree) rest := by
  apply (expression_accepts fuel derived stands (follows_semicolon rest)).bind
  intro value stop bare stands
  refine .expect .symbol stands more fun _ stop stands => ?_
  exact pure_place (fun _ => by simp [bare]) stands

theorem returnRest_accepts {tree : Option (Expr Unit)} (derived : Optional phrase tree)
    (stands : start.kinds = phrase ++ .symbol .semicolon :: rest) :
    Accepts (returnRest fuel keyword) start (·.bare = .returnValue () tree) rest := by
  refine .choose (optional_accepts fuel derived stands (follows_semicolon rest)) ?_
  intro value stop bare stands
  refine .expect .symbol stands more fun _ stop stands => ?_
  exact pure_place (fun _ => by simp [bare]) stands

theorem breakRest_accepts (stands : start.kinds = .symbol .semicolon :: rest) :
    Accepts (breakRest keyword) start (·.bare = .breakLoop ()) rest :=
  .expect .symbol stands more fun _ _ stands => pure_place (fun _ => rfl) stands

theorem continueRest_accepts (stands : start.kinds = .symbol .semicolon :: rest) :
    Accepts (continueRest keyword) start (·.bare = .continueLoop ()) rest :=
  .expect .symbol stands more fun _ _ stands => pure_place (fun _ => rfl) stands

theorem expressionStatement_accepts {tree : Expr Unit} (derived : Expression phrase tree)
    (stands : start.kinds = phrase ++ .symbol .semicolon :: rest) :
    Accepts (expressionStatement fuel) start (·.bare = .expression () tree) rest := by
  apply (expression_accepts fuel derived stands (follows_semicolon rest)).bind
  intro expr stop bare stands
  refine .expect .symbol stands more fun _ stop stands => .look rfl ?_
  exact .pure (by simp [bare]) stands

theorem firstClause_accepts {tree : Option (Stmt Unit)} (derived : FirstClause phrase tree)
    (stands : start.kinds = phrase ++ rest) :
    Accepts (firstClause fuel) start (·.map Stmt.bare = tree) rest := by
  refine .look rfl ?_
  cases derived with
  | none => exact .eat .symbol stands more fun stop stands => .pure rfl stands
  | declare declared =>
    obtain ⟨_, rfl⟩ : ∃ inner, phrase = .keyword .varWord :: inner := by
      cases declared
      exact ⟨_, rfl⟩
    refine .eat_not .symbol (by simp [Progress.here_of_kinds stands]) ?_
    refine .eat .keyword stands (by simp [more]) fun stop stands => .map ?_
    exact (declareRest_accepts fuel _ more declared stands).mono fun _ bare => by simp [bare]
  | @expression inner _ derived =>
    have stands : start.kinds = inner ++ .symbol .semicolon :: rest := by simpa using stands
    refine .eat_not .symbol (here_ne derived.begins stands nofun) ?_
    refine .eat_not .keyword (here_ne derived.begins stands nofun) (.map ?_)
    exact (expressionStatement_accepts fuel more derived stands).mono fun _ bare => by simp [bare]

theorem conditionClause_accepts {tree : Option (Expr Unit)} (derived : Optional phrase tree)
    (stands : start.kinds = phrase ++ .symbol .semicolon :: rest) :
    Accepts (conditionClause fuel) start (fun expr => ∃ condition : Option (Expr Place), ∃ close,
      expr = condition.getD (.literal close (.bool true)) ∧ condition.map Expr.bare = tree) rest := by
  refine .choose (optional_accepts fuel derived stands (follows_semicolon rest)) ?_
  intro condition stop bare stands
  exact .expect .symbol stands more fun close stop stands =>
    .pure ⟨condition, _, rfl, bare⟩ stands

theorem lastClause_accepts {tree : Option (Expr Unit)} (derived : Optional phrase tree)
    (stands : start.kinds = phrase ++ .symbol .rightParen :: rest) :
    Accepts (lastClause fuel) start (·.map Expr.bare = tree) rest := by
  refine .choose (optional_accepts fuel derived stands (follows_rightParen rest)) ?_
  intro last stop bare stands
  exact .expect .symbol stands more fun close stop stands => .pure bare stands

end

theorem parameters_accepts (fuel : Nat) {start : Progress} {phrase rest : List TokenKind}
    {names : List String} (list : NameList phrase names) (before : Array String)
    (few : before.size + names.length ≤ entries)
    (stands : start.kinds = phrase ++ .symbol .rightParen :: rest) :
    Accepts (parameters fuel before) start (· = before.toList ++ names)
      (.symbol .rightParen :: rest) :=
  match fuel with
  | 0 => .exhausted
  | fuel + 1 => by
    cases list with
    | last =>
      refine .warn (Nat.not_le.mpr few) (.expectName stands (by simp) fun stop stands => ?_)
      have elsewhere : stop.here ≠ .symbol .comma := by
        simp [Progress.here_of_kinds stands]
      exact .eat_not .symbol elsewhere (.pure (by simp) stands)
    | @more back names name list =>
      simp only [List.length_cons] at few
      have room : ¬ maxEntries ≤ before.size := by
        simp only [maxEntries, entries] at few ⊢
        omega
      refine .warn room (.expectName stands (by simp) fun stop stands => ?_)
      refine .eat .symbol stands (by simp) fun stop stands => ?_
      have few : (before.push name).size + names.length ≤ entries := by
        rw [Array.size_push]
        omega
      exact (parameters_accepts fuel list (before.push name) few stands).mono fun _ same => by simp [same]
termination_by structural fuel

mutual

theorem declaration_accepts (fuel : Nat) {start : Progress} {phrase rest : List TokenKind}
    {tree : Stmt Unit} (derived : Declaration phrase tree) (stands : start.kinds = phrase ++ rest)
    (more : rest ≠ []) (free : rest.head? ≠ some (.keyword .elseWord)) :
    Accepts (declaration fuel) start (fun found => ∃ stmt, found = some stmt ∧ stmt.bare = tree)
      rest :=
  match fuel with
  | 0 => .exhausted
  | fuel + 1 => by
    refine .recover (.look rfl ?_)
    cases derived with
    | declare declared =>
      obtain ⟨_, rfl⟩ : ∃ inner, phrase = .keyword .varWord :: inner := by
        cases declared
        exact ⟨_, rfl⟩
      refine .eat .keyword stands (by simp [more]) fun stop stands => ?_
      exact declareRest_accepts fuel _ more declared stands
    | function listed few body =>
      refine .eat_not .keyword (by simp [Progress.here_of_kinds stands]) ?_
      refine .eat .keyword stands (by simp) fun stop stands => ?_
      exact functionRest_accepts fuel _ listed few body (by simpa using stands) more
    | statement stmt =>
      have begins := stmt.begins
      have other (word : Keyword) (outside : word = .varWord ∨ word = .funWord) :
          ¬ StatementStarts (.keyword word) := by
        rcases outside with rfl | rfl <;> rintro ⟨⟨⟩⟩
      refine .eat_not .keyword (here_ne begins stands (other _ (.inl rfl))) ?_
      refine .eat_not .keyword (here_ne begins stands (other _ (.inr rfl))) ?_
      exact statement_accepts fuel stmt stands more fun _ => free
termination_by structural fuel

theorem functionRest_accepts (fuel : Nat) (keyword : Token) {start : Progress}
    {front back rest : List TokenKind} {name : String} {names : List String}
    {trees : List (Stmt Unit)} (listed : Parameters front names) (few : names.length ≤ entries)
    (body : Declarations back trees)
    (stands : start.kinds = .identifier name :: .symbol .leftParen :: (front ++
      .symbol .rightParen :: .symbol .leftBrace :: (back ++ .symbol .rightBrace :: rest)))
    (more : rest ≠ []) :
    Accepts (functionRest fuel keyword) start (·.bare = .function () name names trees) rest :=
  match fuel with
  | 0 => .exhausted
  | fuel + 1 => by
    refine .expectName stands (by simp) fun stop stands => ?_
    refine .expect .symbol stands (by simp) fun _ stop stands => ?_
    have named : Accepts (check (.symbol .rightParen) >>= fun found =>
        if found then pure [] else parameters fuel #[]) stop (· = names)
        (.symbol .rightParen :: .symbol .leftBrace :: (back ++ .symbol .rightBrace :: rest)) := by
      cases listed with
      | none => exact .check .symbol (Progress.here_of_kinds stands) (.pure rfl stands)
      | some list =>
        have elsewhere : stop.here ≠ .symbol .rightParen := by
          cases list <;> simp [Progress.here_of_kinds stands]
        refine .check_not .symbol elsewhere ?_
        exact (parameters_accepts fuel list #[] (by simpa using few) stands).mono
          fun _ same => by simpa using same
    refine .choose named fun params stop same stands => ?_
    refine .expect .symbol stands (by simp) fun _ stop stands => ?_
    refine .expect .symbol stands (by simp) fun _ stop stands => ?_
    apply (blockRest_accepts fuel body #[] stands more).bind
    intro body stop bare stands
    exact pure_place (fun _ => by simpa [same] using bare) stands
termination_by structural fuel

theorem statement_accepts (fuel : Nat) {start : Progress} {ending : Bool}
    {phrase rest : List TokenKind} {tree : Stmt Unit} (derived : Statement ending phrase tree)
    (stands : start.kinds = phrase ++ rest) (more : rest ≠ [])
    (free : ending = true → rest.head? ≠ some (.keyword .elseWord)) :
    Accepts (statement fuel) start (·.bare = tree) rest :=
  match fuel with
  | 0 => .exhausted
  | fuel + 1 => by
    cases derived with
    -- An expression begins with none of the words that the parser looks for.
    | @expression inner _ derived =>
      have stands : start.kinds = inner ++ .symbol .semicolon :: rest := by simpa using stands
      have accepted := expressionStatement_accepts fuel more derived stands
      obtain ⟨kind, _, rfl, begun⟩ := derived.begins
      refine .current stands fun token same => ?_
      rw [same]
      cases begun <;> exact accepted
    | print derived =>
      refine .leading stands nofun (by simp) (fun _ same => by rw [same]) fun token stop stands => ?_
      exact printRest_accepts fuel token more derived (by simpa using stands)
    | ifThen condition body =>
      refine .leading stands nofun (by simp) (fun _ same => by rw [same]) fun token stop stands => ?_
      exact ifRest_accepts fuel token condition body (by simpa using stands) more (free rfl)
    | ifElse condition body other =>
      refine .leading stands nofun (by simp) (fun _ same => by rw [same]) fun token stop stands => ?_
      exact ifRest_accepts_else fuel token condition body other (by simpa using stands) more free
    | whileLoop condition body =>
      refine .leading stands nofun (by simp) (fun _ same => by rw [same]) fun token stop stands => ?_
      exact whileRest_accepts fuel token condition body (by simpa using stands) more free
    | forLoop first condition last body =>
      refine .leading stands nofun (by simp) (fun _ same => by rw [same]) fun token stop stands => ?_
      exact forRest_accepts fuel token first condition last body (by simpa using stands) more free
    | returnValue value =>
      refine .leading stands nofun (by simp) (fun _ same => by rw [same]) fun token stop stands => ?_
      exact returnRest_accepts fuel token more value (by simpa using stands)
    | breakLoop =>
      refine .leading stands nofun (by simp) (fun _ same => by rw [same]) fun token stop stands => ?_
      exact breakRest_accepts token more stands
    | continueLoop =>
      refine .leading stands nofun (by simp) (fun _ same => by rw [same]) fun token stop stands => ?_
      exact continueRest_accepts token more stands
    | @block inner trees body =>
      refine .leading stands nofun (by simp) (fun _ same => by rw [same]) fun token stop stands => ?_
      have stands : stop.kinds = inner ++ .symbol .rightBrace :: rest := by simpa using stands
      apply (blockRest_accepts fuel body #[] stands more).bind
      intro body stop bare stands
      exact pure_place (fun _ => by simpa using bare) stands
termination_by structural fuel

theorem blockRest_accepts (fuel : Nat) {start : Progress} {phrase rest : List TokenKind}
    {trees : List (Stmt Unit)} (derived : Declarations phrase trees) (before : Array (Stmt Place))
    (stands : start.kinds = phrase ++ .symbol .rightBrace :: rest) (more : rest ≠ []) :
    Accepts (blockRest fuel before) start
      (fun all => all.map Stmt.bare = before.toList.map Stmt.bare ++ trees) rest :=
  match fuel with
  | 0 => .exhausted
  | fuel + 1 => by
    refine .look rfl (.look rfl ?_)
    cases derived with
    | nil =>
      have closing : start.cursor.check (.symbol .rightBrace) = true :=
        TokenKind.Fixed.symbol.same_iff.mpr (Progress.here_of_kinds stands)
      rw [if_pos (by simp [closing])]
      exact .expect .symbol stands more fun _ stop stands => .pure (by simp) stands
    | @cons front tree back trees first further =>
      have begins := first.begins.append back
      have unclosed : start.cursor.check (.symbol .rightBrace) ≠ true :=
        mt TokenKind.Fixed.symbol.same_iff.mp
          (here_ne begins stands (not_declarationStarts (.inl rfl)))
      have inside : start.cursor.atEnd ≠ true :=
        mt Cursor.atEnd_iff.mp (here_ne begins stands (not_declarationStarts (.inr (.inl rfl))))
      rw [if_neg (by simp [unclosed, inside])]
      have stands : start.kinds = front ++ (back ++ .symbol .rightBrace :: rest) := by
        simpa using stands
      apply (declaration_accepts fuel first stands (by simp) (further.no_else _ nofun)).bind
      rintro _ stop ⟨stmt, rfl, bare⟩ stands
      refine (blockRest_accepts fuel further (before.push stmt) stands more).mono fun all same => ?_
      simpa [bare] using same
termination_by structural fuel

theorem ifRest_accepts (fuel : Nat) (keyword : Token) {start : Progress} {ending : Bool}
    {front back rest : List TokenKind} {tree : Expr Unit} {bodyTree : Stmt Unit}
    (condition : Expression front tree) (body : Statement ending back bodyTree)
    (stands : start.kinds = .symbol .leftParen :: (front ++ .symbol .rightParen :: (back ++ rest)))
    (more : rest ≠ []) (free : rest.head? ≠ some (.keyword .elseWord)) :
    Accepts (ifRest fuel keyword) start (·.bare = .ifThen () tree bodyTree) rest :=
  match fuel with
  | 0 => .exhausted
  | fuel + 1 => by
    refine .expect .symbol stands (by simp) fun _ stop stands => ?_
    apply (expression_accepts fuel condition stands (follows_rightParen _)).bind
    intro condition stop bare stands
    refine .expect .symbol stands (by simp [more]) fun _ stop stands => ?_
    apply (statement_accepts fuel body stands more fun _ => free).bind
    intro body stop same stands
    have elsewhere : stop.here ≠ .keyword .elseWord := by
      intro here
      exact free (by rw [← stands, ← here]; rfl)
    exact .eat_not .keyword elsewhere (pure_place (fun _ => by simp [bare, same]) stands)
termination_by structural fuel

theorem ifRest_accepts_else (fuel : Nat) (keyword : Token) {start : Progress} {ending : Bool}
    {front middle back rest : List TokenKind} {tree : Expr Unit} {bodyTree otherTree : Stmt Unit}
    (condition : Expression front tree) (body : Statement false middle bodyTree)
    (other : Statement ending back otherTree)
    (stands : start.kinds = .symbol .leftParen :: (front ++ .symbol .rightParen :: (middle ++
      .keyword .elseWord :: (back ++ rest)))) (more : rest ≠ [])
    (free : ending = true → rest.head? ≠ some (.keyword .elseWord)) :
    Accepts (ifRest fuel keyword) start (·.bare = .ifElse () tree bodyTree otherTree) rest :=
  match fuel with
  | 0 => .exhausted
  | fuel + 1 => by
    refine .expect .symbol stands (by simp) fun _ stop stands => ?_
    apply (expression_accepts fuel condition stands (follows_rightParen _)).bind
    intro condition stop bare stands
    refine .expect .symbol stands (by simp) fun _ stop stands => ?_
    apply (statement_accepts fuel body stands (by simp) nofun).bind
    intro body stop same stands
    refine .eat .keyword stands (by simp [more]) fun stop stands => ?_
    apply (statement_accepts fuel other stands more free).bind
    intro other stop same' stands
    exact pure_place (fun _ => by simp [bare, same, same']) stands
termination_by structural fuel

theorem whileRest_accepts (fuel : Nat) (keyword : Token) {start : Progress} {ending : Bool}
    {front back rest : List TokenKind} {tree : Expr Unit} {bodyTree : Stmt Unit}
    (condition : Expression front tree) (body : Statement ending back bodyTree)
    (stands : start.kinds = .symbol .leftParen :: (front ++ .symbol .rightParen :: (back ++ rest)))
    (more : rest ≠ []) (free : ending = true → rest.head? ≠ some (.keyword .elseWord)) :
    Accepts (whileRest fuel keyword) start (·.bare = .whileLoop () tree bodyTree) rest :=
  match fuel with
  | 0 => .exhausted
  | fuel + 1 => by
    refine .expect .symbol stands (by simp) fun _ stop stands => ?_
    apply (expression_accepts fuel condition stands (follows_rightParen _)).bind
    intro condition stop bare stands
    refine .expect .symbol stands (by simp [more]) fun _ stop stands => ?_
    apply (statement_accepts fuel body stands more free).bind
    intro body stop same stands
    exact pure_place (fun _ => by simp [bare, same]) stands
termination_by structural fuel

theorem forRest_accepts (fuel : Nat) (keyword : Token) {start : Progress} {ending : Bool}
    {front middle back phrase rest : List TokenKind} {firstTree : Option (Stmt Unit)}
    {conditionTree lastTree : Option (Expr Unit)} {bodyTree : Stmt Unit}
    (first : FirstClause front firstTree) (condition : Optional middle conditionTree)
    (last : Optional back lastTree) (body : Statement ending phrase bodyTree)
    (stands : start.kinds = .symbol .leftParen :: (front ++ (middle ++ .symbol .semicolon ::
      (back ++ .symbol .rightParen :: (phrase ++ rest))))) (more : rest ≠ [])
    (free : ending = true → rest.head? ≠ some (.keyword .elseWord)) :
    Accepts (forRest fuel keyword) start
      (·.bare = forLoop firstTree conditionTree lastTree bodyTree) rest :=
  match fuel with
  | 0 => .exhausted
  | fuel + 1 => by
    refine .expect .symbol stands (by simp) fun _ stop stands => ?_
    apply (firstClause_accepts fuel (by simp) first stands).bind
    intro first stop bare stands
    apply (conditionClause_accepts fuel (by simp) condition stands).bind
    rintro _ stop ⟨condition, close, rfl, bare'⟩ stands
    apply (lastClause_accepts fuel (by simp [more]) last stands).bind
    intro last stop bare'' stands
    apply (statement_accepts fuel body stands more free).bind
    intro body stop same stands
    exact .look rfl (pure_place (fun _ => by simp [bare, bare', bare'', same]) stands)
termination_by structural fuel

end

theorem program_accepts (fuel : Nat) {start : Progress} {phrase : List TokenKind}
    {trees : List (Stmt Unit)} (derived : Declarations phrase trees) (before : Array (Stmt Place))
    (stands : start.kinds = phrase ++ [.eof]) :
    Accepts (program fuel before) start
      (fun all => all.map Stmt.bare = before.toList.map Stmt.bare ++ trees) [.eof] :=
  match fuel with
  | 0 => .exhausted
  | fuel + 1 => by
    refine .look rfl ?_
    cases derived with
    | nil =>
      have ended : start.cursor.atEnd = true := Cursor.atEnd_iff.mpr (Progress.here_of_kinds stands)
      rw [if_pos ended]
      exact .pure (by simp) stands
    | @cons front tree back trees first further =>
      have inside : start.cursor.atEnd ≠ true := mt Cursor.atEnd_iff.mp
        (here_ne (first.begins.append back) stands (not_declarationStarts (.inr (.inl rfl))))
      rw [if_neg inside]
      have stands : start.kinds = front ++ (back ++ [.eof]) := by simpa using stands
      apply (declaration_accepts fuel first stands (by simp) (further.no_else _ nofun)).bind
      rintro _ stop ⟨stmt, rfl, bare⟩ stands
      refine (program_accepts fuel further (before.push stmt) stands).mono fun all same => ?_
      simpa [bare] using same
termination_by structural fuel

end Lox.Parser
