import Lox.Proofs.ParserBudget

/-! A parser that does not use up its budget does the same with every larger one. So what tokens are
parsed to does not depend on the budget, as long as it is enough. -/

namespace Lox.Parser

variable {α β : Type}

/-- The second parser does what the first does, unless the first runs out of its budget. -/
def Refines (parser larger : Parser α) : Prop :=
  ∀ start, (∃ stop, parser start = .error .exhausted stop) ∨ parser start = larger start

namespace Refines

variable {parser larger : Parser α} {next next' : α → Parser β}

theorem refl (parser : Parser α) : Refines parser parser := fun _ => .inr rfl

theorem exhausted : Refines (throw .exhausted) larger := fun start => .inl ⟨start, rfl⟩

theorem bind (first : Refines parser larger) (goesOn : ∀ value, Refines (next value) (next' value)) :
    Refines (parser >>= next) (larger >>= next') := by
  intro start
  rcases first start with ⟨stop, stopped⟩ | same
  · exact .inl ⟨stop, Sequencing.bind_error stopped⟩
  · rcases Sequencing.bind_alike same with ⟨value, middle, ran, ran'⟩ | same
    · rw [ran, ran']
      exact goesOn value middle
    · exact .inr same

/-- The same step in front of both. -/
theorem after (step : Parser α) (goesOn : ∀ value, Refines (next value) (next' value)) :
    Refines (step >>= next) (step >>= next') :=
  (refl step).bind goesOn

theorem map {f : α → β} (refines : Refines parser larger) : Refines (f <$> parser) (f <$> larger) := by
  rw [map_eq_pure_bind, map_eq_pure_bind]
  exact refines.bind fun _ => .refl _

theorem choice {condition : Prop} [Decidable condition] {yes no yes' no' : Parser α}
    (taken : Refines yes yes') (other : Refines no no') :
    Refines (if condition then yes else no) (if condition then yes' else no') := by
  split
  · exact taken
  · exact other

/-- A test in front of two ways to go on. -/
theorem test (test : Parser Bool) {yes no yes' no' : Parser α} (taken : Refines yes yes')
    (other : Refines no no') : Refines (test >>= fun holds => if holds then yes else no)
      (test >>= fun holds => if holds then yes' else no') :=
  after test fun _ => choice taken other

theorem choose {test : Parser Bool} {yes no yes' no' : Parser α}
    (first : Refines (test >>= fun holds => if holds then yes else no)
      (test >>= fun holds => if holds then yes' else no'))
    (goesOn : ∀ value, Refines (next value) (next' value)) :
    Refines (test >>= fun holds => if holds then yes >>= next else no >>= next)
      (test >>= fun holds => if holds then yes' >>= next' else no' >>= next') := by
  rw [if_then_rest, if_then_rest]
  exact first.bind goesOn

theorem recover (refines : Refines parser larger) : Refines (recover parser) (recover larger) := by
  intro start
  rcases refines start with ⟨stop, stopped⟩ | same
  · exact .inl ⟨stop, by simp only [Parser.recover, stopped]⟩
  · exact .inr (by simp only [Parser.recover, same])

end Refines

variable (extra : Nat)

mutual

theorem expression_more (fuel : Nat) : Refines (expression fuel) (expression (extra + fuel)) :=
  match fuel with
  | 0 => .exhausted
  | fuel + 1 => by
    refine (chain_more fuel Level.all).bind fun target => .after _ fun equals => ?_
    exact .test _ ((expression_more fuel).bind fun value => .refl _) (.refl _)
termination_by structural fuel

theorem chain_more (fuel : Nat) (levels : List Level) :
    Refines (chain fuel levels) (chain (extra + fuel) levels) :=
  match fuel, levels with
  | 0, _ => .exhausted
  | fuel + 1, [] => unary_more fuel
  | fuel + 1, level :: tighter =>
    (chain_more fuel tighter).bind fun left => chainRest_more fuel level tighter left
termination_by structural fuel

theorem chainRest_more (fuel : Nat) (level : Level) (tighter : List Level) (left : Expr Place) :
    Refines (chainRest fuel level tighter left) (chainRest (extra + fuel) level tighter left) :=
  match fuel with
  | 0 => .exhausted
  | fuel + 1 => by
    refine .after _ fun token => ?_
    split
    · exact .refl _
    · refine .after _ fun _ => (chain_more fuel tighter).bind fun right => ?_
      exact chainRest_more fuel level tighter _
termination_by structural fuel

theorem unary_more (fuel : Nat) : Refines (unary fuel) (unary (extra + fuel)) :=
  match fuel with
  | 0 => .exhausted
  | fuel + 1 => by
    refine .after _ fun token => ?_
    split
    · exact .after _ fun _ => (unary_more fuel).bind fun operand => .refl _
    · exact (primary_more fuel).bind fun callee => calls_more fuel callee
termination_by structural fuel

theorem calls_more (fuel : Nat) (callee : Expr Place) :
    Refines (calls fuel callee) (calls (extra + fuel) callee) :=
  match fuel with
  | 0 => .exhausted
  | fuel + 1 => by
    refine .test _ (.choose (.test _ (.refl _) (arguments_more fuel #[])) fun arguments => ?_) (.refl _)
    exact .after _ fun close => calls_more fuel _
termination_by structural fuel

theorem arguments_more (fuel : Nat) (before : Array (Expr Place)) :
    Refines (arguments fuel before) (arguments (extra + fuel) before) :=
  match fuel with
  | 0 => .exhausted
  | fuel + 1 => by
    have given : Refines
        (expression fuel >>= fun argument => eat (.symbol .comma) >>= fun eaten =>
          if eaten then arguments fuel (before.push argument)
          else pure (before.push argument).toList)
        (expression (extra + fuel) >>= fun argument => eat (.symbol .comma) >>= fun eaten =>
          if eaten then arguments (extra + fuel) (before.push argument)
          else pure (before.push argument).toList) :=
      (expression_more fuel).bind fun argument => .test _ (arguments_more fuel _) (.refl _)
    exact .choice (.after _ fun _ => given) given
termination_by structural fuel

theorem primary_more (fuel : Nat) : Refines (primary fuel) (primary (extra + fuel)) :=
  match fuel with
  | 0 => .exhausted
  | fuel + 1 => by
    refine .after _ fun token => .test _ ((expression_more fuel).bind fun inner => .refl _) ?_
    split
    · exact .refl _
    · exact .refl _
termination_by structural fuel

end

theorem optional_more (closing : TokenKind) (fuel : Nat) : Refines
    (check closing >>= fun found => if found then pure none else some <$> expression fuel)
    (check closing >>= fun found => if found then pure none else some <$> expression (extra + fuel)) :=
  .test _ (.refl _) (expression_more extra fuel).map

section
variable (fuel : Nat) (keyword : Token)

theorem declareRest_more : Refines (declareRest fuel keyword) (declareRest (extra + fuel) keyword) := by
  refine .after _ fun name => .choose (.test _ ?_ (.refl _)) fun initial => .refl _
  exact (expression_more extra fuel).map

theorem printRest_more : Refines (printRest fuel keyword) (printRest (extra + fuel) keyword) :=
  (expression_more extra fuel).bind fun _ => .refl _

theorem returnRest_more : Refines (returnRest fuel keyword) (returnRest (extra + fuel) keyword) :=
  .choose (optional_more extra _ fuel) fun _ => .refl _

theorem expressionStatement_more :
    Refines (expressionStatement fuel) (expressionStatement (extra + fuel)) :=
  (expression_more extra fuel).bind fun _ => .refl _

theorem firstClause_more : Refines (firstClause fuel) (firstClause (extra + fuel)) := by
  refine .after _ fun token => .test _ (.refl _) (.test _ ?_ ?_)
  · exact (declareRest_more extra fuel token).map
  · exact (expressionStatement_more extra fuel).map

theorem conditionClause_more : Refines (conditionClause fuel) (conditionClause (extra + fuel)) :=
  .choose (optional_more extra _ fuel) fun _ => .refl _

theorem lastClause_more : Refines (lastClause fuel) (lastClause (extra + fuel)) :=
  .choose (optional_more extra _ fuel) fun _ => .refl _

end

theorem parameters_more (fuel : Nat) (before : Array String) :
    Refines (parameters fuel before) (parameters (extra + fuel) before) := by
  induction fuel generalizing before with
  | zero => exact .exhausted
  | succ fuel ih =>
    have named : Refines
        (expectName "expected parameter name" >>= fun name => eat (.symbol .comma) >>= fun eaten =>
          if eaten then parameters fuel (before.push name) else pure (before.push name).toList)
        (expectName "expected parameter name" >>= fun name => eat (.symbol .comma) >>= fun eaten =>
          if eaten then parameters (extra + fuel) (before.push name)
          else pure (before.push name).toList) :=
      .after _ fun name => .test _ (ih _) (.refl _)
    exact .choice (.after _ fun _ => named) named

mutual

theorem declaration_more (fuel : Nat) : Refines (declaration fuel) (declaration (extra + fuel)) :=
  match fuel with
  | 0 => .exhausted
  | fuel + 1 => by
    refine .recover (.after _ fun keyword => .test _ (declareRest_more extra fuel keyword) ?_)
    exact .test _ (functionRest_more fuel keyword) (statement_more fuel)
termination_by structural fuel

theorem functionRest_more (fuel : Nat) (keyword : Token) :
    Refines (functionRest fuel keyword) (functionRest (extra + fuel) keyword) :=
  match fuel with
  | 0 => .exhausted
  | fuel + 1 => by
    refine .after _ fun name => .after _ fun _ => ?_
    refine .choose (.test _ (.refl _) (parameters_more extra fuel #[])) fun params => ?_
    refine .after _ fun _ => .after _ fun _ => ?_
    exact (blockRest_more fuel #[]).bind fun body => .refl _
termination_by structural fuel

theorem statement_more (fuel : Nat) : Refines (statement fuel) (statement (extra + fuel)) :=
  match fuel with
  | 0 => .exhausted
  | fuel + 1 => by
    refine .after _ fun keyword => ?_
    split <;> try refine .after _ fun _ => ?_
    · exact forRest_more fuel keyword
    · exact ifRest_more fuel keyword
    · exact printRest_more extra fuel keyword
    · exact returnRest_more extra fuel keyword
    · exact whileRest_more fuel keyword
    · exact .refl _
    · exact .refl _
    · exact (blockRest_more fuel #[]).bind fun body => .refl _
    · exact expressionStatement_more extra fuel
termination_by structural fuel

theorem blockRest_more (fuel : Nat) (before : Array (Stmt Place)) :
    Refines (blockRest fuel before) (blockRest (extra + fuel) before) :=
  match fuel with
  | 0 => .exhausted
  | fuel + 1 => by
    refine .after _ fun closing => .after _ fun ended => .choice (.refl _) ?_
    refine (declaration_more fuel).bind fun found => ?_
    cases found with
    | none => exact blockRest_more fuel before
    | some stmt => exact blockRest_more fuel _
termination_by structural fuel

theorem ifRest_more (fuel : Nat) (keyword : Token) :
    Refines (ifRest fuel keyword) (ifRest (extra + fuel) keyword) :=
  match fuel with
  | 0 => .exhausted
  | fuel + 1 => by
    refine .after _ fun _ => (expression_more extra fuel).bind fun condition => .after _ fun _ => ?_
    refine (statement_more fuel).bind fun body => .test _ ?_ (.refl _)
    exact (statement_more fuel).bind fun other => .refl _
termination_by structural fuel

theorem whileRest_more (fuel : Nat) (keyword : Token) :
    Refines (whileRest fuel keyword) (whileRest (extra + fuel) keyword) :=
  match fuel with
  | 0 => .exhausted
  | fuel + 1 => by
    refine .after _ fun _ => (expression_more extra fuel).bind fun condition => .after _ fun _ => ?_
    exact (statement_more fuel).bind fun body => .refl _
termination_by structural fuel

theorem forRest_more (fuel : Nat) (keyword : Token) :
    Refines (forRest fuel keyword) (forRest (extra + fuel) keyword) :=
  match fuel with
  | 0 => .exhausted
  | fuel + 1 => by
    refine .after _ fun _ => (firstClause_more extra fuel).bind fun first => ?_
    refine (conditionClause_more extra fuel).bind fun condition => ?_
    refine (lastClause_more extra fuel).bind fun last => ?_
    exact (statement_more fuel).bind fun body => .refl _
termination_by structural fuel

end

theorem program_more (fuel : Nat) (before : Array (Stmt Place)) :
    Refines (program fuel before) (program (extra + fuel) before) := by
  induction fuel generalizing before with
  | zero => exact .exhausted
  | succ fuel ih =>
    refine .test _ (.refl _) ((declaration_more extra fuel).bind fun found => ?_)
    cases found with
    | none => exact ih before
    | some stmt => exact ih _

/-- A program is parsed alike with all budgets that are enough for it. -/
theorem program_unique {fuel other : Nat} {before : Array (Stmt Place)} {start stop last : Progress}
    {value result : Program} (ran : program fuel before start = .ok value stop)
    (ran' : program other before start = .ok result last) : value = result ∧ stop = last := by
  have larger {fuel : Nat} (extra : Nat) {value : Program} {stop : Progress}
      (ran : program fuel before start = .ok value stop) :
      program (extra + fuel) before start = .ok value stop := by
    rcases program_more extra fuel before start with ⟨_, stopped⟩ | same
    · rw [ran] at stopped
      cases stopped
    · exact same.symm.trans ran
  have together := larger other ran
  rw [Nat.add_comm, larger fuel ran'] at together
  obtain ⟨rfl, rfl⟩ := EStateM.Result.ok.inj together
  exact ⟨rfl, rfl⟩

end Lox.Parser
