import Lox.Proofs.GrammarTables

/-! What parsing from left to right needs to know of the grammar: the tokens that phrases begin
with, and phrases that grow to the right as a first part and what follows it. -/

namespace Lox.Grammar

/-- The tokens that expressions begin with. -/
inductive Starts : TokenKind → Prop where
  | bracket : Starts (.symbol .leftParen)
  | not : Starts (.symbol .bang)
  | negate : Starts (.symbol .minus)
  | number : Starts (.number value)
  | string : Starts (.string contents)
  | true : Starts (.keyword .trueWord)
  | false : Starts (.keyword .falseWord)
  | nil : Starts (.keyword .nilWord)
  | name : Starts (.identifier name)

/-- The tokens that statements begin with. -/
inductive StatementStarts : TokenKind → Prop where
  | expression (starts : Starts kind) : StatementStarts kind
  | print : StatementStarts (.keyword .printWord)
  | conditional : StatementStarts (.keyword .ifWord)
  | whileLoop : StatementStarts (.keyword .whileWord)
  | forLoop : StatementStarts (.keyword .forWord)
  | returnValue : StatementStarts (.keyword .returnWord)
  | breakLoop : StatementStarts (.keyword .breakWord)
  | continueLoop : StatementStarts (.keyword .continueWord)
  | block : StatementStarts (.symbol .leftBrace)

/-- The tokens that declarations begin with. -/
inductive DeclarationStarts : TokenKind → Prop where
  | declare : DeclarationStarts (.keyword .varWord)
  | function : DeclarationStarts (.keyword .funWord)
  | statement (starts : StatementStarts kind) : DeclarationStarts kind

theorem DeclarationStarts.of_plain {kind : TokenKind} (starts : DeclarationStarts kind)
    (declares : kind ≠ .keyword .varWord ∧ kind ≠ .keyword .funWord) : StatementStarts kind := by
  cases starts with
  | declare => exact absurd rfl declares.1
  | function => exact absurd rfl declares.2
  | statement starts => exact starts

/-- What closes a list of declarations, and an `else`, begins no declaration. -/
theorem not_declarationStarts {kind : TokenKind}
    (closing : kind = .symbol .rightBrace ∨ kind = .eof ∨ kind = .keyword .elseWord) :
    ¬ DeclarationStarts kind := by
  rcases closing with rfl | rfl | rfl <;> intro starts <;>
    cases starts.of_plain (by simp) with
    | expression starts => cases starts

/-- A phrase begins with such a token. -/
def Begins (starts : TokenKind → Prop) (phrase : List TokenKind) : Prop :=
  ∃ kind rest, phrase = kind :: rest ∧ starts kind

namespace Begins

variable {starts : TokenKind → Prop} {phrase : List TokenKind}

theorem append (begins : Begins starts phrase) (rest : List TokenKind) :
    Begins starts (phrase ++ rest) := by
  obtain ⟨kind, more, rfl, first⟩ := begins
  exact ⟨kind, more ++ rest, rfl, first⟩

theorem ne_nil (begins : Begins starts phrase) : phrase ≠ [] := by
  obtain ⟨kind, rest, rfl, -⟩ := begins
  exact List.cons_ne_nil kind rest

theorem mono {weaker : TokenKind → Prop} (begins : Begins starts phrase)
    (implies : ∀ kind, starts kind → weaker kind) : Begins weaker phrase := by
  obtain ⟨kind, rest, same, first⟩ := begins
  exact ⟨kind, rest, same, implies kind first⟩

end Begins

mutual

theorem Expression.begins {phrase : List TokenKind} {tree : Expr Unit} :
    Expression phrase tree → Begins Starts phrase
  | .assign _ => ⟨_, _, rfl, .name⟩
  | .operation operation => operation.begins

theorem Operation.begins {levels : List Level} {phrase : List TokenKind} {tree : Expr Unit} :
    Operation levels phrase tree → Begins Starts phrase
  | .single operation => operation.begins
  | .join left _ _ => left.begins.append _
  | .operand operand => operand.begins

theorem Unary.begins {phrase : List TokenKind} {tree : Expr Unit} :
    Unary phrase tree → Begins Starts phrase
  | .prefixed .not _ => ⟨_, _, rfl, .not⟩
  | .prefixed .negate _ => ⟨_, _, rfl, .negate⟩
  | .call call => call.begins

theorem Call.begins {phrase : List TokenKind} {tree : Expr Unit} :
    Call phrase tree → Begins Starts phrase
  | .primary primary => primary.begins
  | .call callee _ _ => callee.begins.append _

theorem Primary.begins {phrase : List TokenKind} {tree : Expr Unit} :
    Primary phrase tree → Begins Starts phrase
  | .leaf leaf => by cases leaf <;> exact ⟨_, _, rfl, by constructor⟩
  | .grouping _ => ⟨_, _, rfl, .bracket⟩

end

theorem ArgumentList.begins {phrase : List TokenKind} {trees : List (Expr Unit)}
    (list : ArgumentList phrase trees) : Begins Starts phrase := by
  cases list with
  | last argument => exact argument.begins
  | more argument => exact argument.begins.append _

theorem Primary.begins_unsigned {phrase : List TokenKind} {tree : Expr Unit}
    (primary : Primary phrase tree) : Begins (·.unaryOperator? = none) phrase := by
  cases primary with
  | leaf leaf => cases leaf <;> exact ⟨_, _, rfl, rfl⟩
  | grouping => exact ⟨_, _, rfl, rfl⟩

theorem Statement.begins {ending : Bool} {phrase : List TokenKind} {tree : Stmt Unit}
    (statement : Statement ending phrase tree) : Begins StatementStarts phrase := by
  cases statement with
  | expression expr => exact (expr.begins.append _).mono fun _ => .expression
  | print => exact ⟨_, _, rfl, .print⟩
  | ifThen | ifElse => exact ⟨_, _, rfl, .conditional⟩
  | whileLoop => exact ⟨_, _, rfl, .whileLoop⟩
  | forLoop => exact ⟨_, _, rfl, .forLoop⟩
  | returnValue => exact ⟨_, _, rfl, .returnValue⟩
  | breakLoop => exact ⟨_, _, rfl, .breakLoop⟩
  | continueLoop => exact ⟨_, _, rfl, .continueLoop⟩
  | block => exact ⟨_, _, rfl, .block⟩

theorem Declaration.begins {phrase : List TokenKind} {tree : Stmt Unit}
    (declaration : Declaration phrase tree) : Begins DeclarationStarts phrase := by
  cases declaration with
  | declare declared =>
    cases declared with
    | declare => exact ⟨_, _, rfl, .declare⟩
  | function => exact ⟨_, _, rfl, .function⟩
  | statement stmt => exact stmt.begins.mono fun _ => .statement

theorem FirstClause.ne_nil {phrase : List TokenKind} {first : Option (Stmt Unit)}
    (clause : FirstClause phrase first) : phrase ≠ [] := by
  cases clause with
  | none => exact List.cons_ne_nil _ _
  | declare declared =>
    cases declared
    exact List.cons_ne_nil _ _
  | expression => simp

/-- No declaration begins with an `else`. -/
theorem Declarations.no_else {phrase : List TokenKind} {trees : List (Stmt Unit)}
    (declarations : Declarations phrase trees) {closing : TokenKind} (rest : List TokenKind)
    (other : closing ≠ .keyword .elseWord) :
    (phrase ++ closing :: rest).head? ≠ some (.keyword .elseWord) := by
  cases declarations with
  | nil => simpa using other
  | cons first =>
    obtain ⟨kind, more, rfl, begun⟩ := first.begins
    intro same
    exact not_declarationStarts (.inr (.inr (Option.some.inj same))) begun

/-- Operators of one level with the operands to their right, behind an operand. -/
inductive Joins (level : Level) (tighter : List Level) :
    Expr Unit → List TokenKind → Expr Unit → Prop where
  | done : Joins level tighter tree [] tree
  | more (operator : Operator level kind joint) (operand : Operation tighter phrase right)
      (further : Joins level tighter (joined left right joint) rest tree) :
      Joins level tighter left (kind :: (phrase ++ rest)) tree

theorem Joins.snoc {level : Level} {tighter : List Level} {left middle right : Expr Unit}
    {phrase back : List TokenKind} {kind : TokenKind} {joint : Joint}
    (joins : Joins level tighter left phrase middle) (operator : Operator level kind joint)
    (operand : Operation tighter back right) :
    Joins level tighter left (phrase ++ kind :: back) (joined middle right joint) := by
  induction joins with
  | done => simpa using Joins.more operator operand .done
  | more first operand' _ ih => simpa using Joins.more first operand' ih

private theorem Operation.split_of {levels : List Level} {phrase : List TokenKind}
    {tree : Expr Unit} : Operation levels phrase tree → ∀ level tighter, levels = level :: tighter →
      ∃ front back head, phrase = front ++ back ∧ Operation tighter front head ∧
        Joins level tighter head back tree
  | .single operation, _, _, rfl => ⟨phrase, [], tree, by simp, operation, .done⟩
  | .join left operator right, _, _, rfl => by
    obtain ⟨front, back, head, rfl, operation, joins⟩ := left.split_of _ _ rfl
    exact ⟨front, _, head, by simp, operation, joins.snoc operator right⟩
  | .operand _, _, _, impossible => nomatch impossible

theorem Operation.split {level : Level} {tighter : List Level} {phrase : List TokenKind}
    {tree : Expr Unit} (operation : Operation (level :: tighter) phrase tree) :
    ∃ front back head, phrase = front ++ back ∧ Operation tighter front head ∧
      Joins level tighter head back tree :=
  operation.split_of level tighter rfl

/-- Brackets with arguments, behind what is called. -/
inductive CalledWith : Expr Unit → List TokenKind → Expr Unit → Prop where
  | done : CalledWith tree [] tree
  | more (arguments : Arguments phrase trees) (few : trees.length ≤ entries)
      (further : CalledWith (.call () callee trees) rest tree) :
      CalledWith callee (.symbol .leftParen :: (phrase ++ .symbol .rightParen :: rest)) tree

theorem CalledWith.snoc {callee tree : Expr Unit} {phrase back : List TokenKind}
    {trees : List (Expr Unit)} (called : CalledWith callee phrase tree)
    (arguments : Arguments back trees) (few : trees.length ≤ entries) :
    CalledWith callee (phrase ++ .symbol .leftParen :: (back ++ [.symbol .rightParen]))
      (.call () tree trees) := by
  induction called with
  | done => exact .more arguments few .done
  | more first few' _ ih => simpa using CalledWith.more first few' ih

theorem Call.split {phrase : List TokenKind} {tree : Expr Unit} : Call phrase tree →
    ∃ front back head, phrase = front ++ back ∧ Primary front head ∧ CalledWith head back tree
  | .primary head => ⟨phrase, [], tree, by simp, head, .done⟩
  | .call callee arguments few => by
    obtain ⟨front, back, head, rfl, primary, called⟩ := callee.split
    exact ⟨front, _, head, by simp, primary, called.snoc arguments few⟩

/-- No token writes operators of two levels. -/
theorem Operator.level_unique {level other : Level} {kind : TokenKind} {joint second : Joint}
    (operator : Operator level kind joint) (again : Operator other kind second) : level = other := by
  cases operator <;> cases again <;> rfl

end Lox.Grammar
