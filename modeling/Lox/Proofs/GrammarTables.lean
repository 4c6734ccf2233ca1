import Lox.Proofs.Grammar

/-! The operators and leaves the parser knows are those of the grammar, and the nodes it builds are
those of the grammar once their places are taken away. -/

namespace Lox.Grammar

theorem operator_iff {level : Level} {kind : TokenKind} {joint : Joint} :
    Operator level kind joint ↔ level.joint? kind = some joint := by
  constructor
  · intro operator
    cases operator <;> rfl
  · intro found
    unfold Level.joint? at found
    split at found <;> cases found <;> constructor

theorem prefix_iff {kind : TokenKind} {operator : UnaryOperator} :
    Prefix kind operator ↔ kind.unaryOperator? = some operator := by
  constructor
  · intro sign
    cases sign <;> rfl
  · intro found
    unfold TokenKind.unaryOperator? at found
    split at found <;> cases found <;> constructor

theorem leaf_of_leaf? {token : Token} {leaf : Expr Place} (found : token.leaf? = some leaf) :
    Leaf token.kind leaf.bare := by
  unfold Token.leaf? at found
  split at found <;> cases found <;> rename_i stands <;> rw [stands] <;> constructor

theorem leaf?_of_leaf {token : Token} {tree : Expr Unit} (leaf : Leaf token.kind tree) :
    ∃ found, token.leaf? = some found ∧ found.bare = tree := by
  obtain ⟨kind, lexeme, line, span⟩ := token
  cases leaf <;> exact ⟨_, rfl, rfl⟩

theorem Operator.ne_eof {level : Level} {kind : TokenKind} {joint : Joint}
    (operator : Operator level kind joint) : kind ≠ .eof := by
  cases operator <;> simp

theorem Prefix.ne_eof {kind : TokenKind} {operator : UnaryOperator} (sign : Prefix kind operator) :
    kind ≠ .eof := by
  cases sign <;> simp

theorem Leaf.ne_eof {kind : TokenKind} {tree : Expr Unit} (leaf : Leaf kind tree) : kind ≠ .eof := by
  cases leaf <;> simp

/-- An expression without operators and brackets around it that is a name is that name alone. -/
theorem Operation.of_name {levels : List Level} {phrase : List TokenKind} {name : String}
    (operation : Operation levels phrase (.name () name)) : phrase = [.identifier name] := by
  induction levels with
  | nil =>
    cases operation with
    | operand operand =>
      cases operand with
      | call call =>
        cases call with
        | primary primary =>
          cases primary with
          | leaf leaf =>
            cases leaf with
            | name => rfl
  | cons level tighter ih =>
    generalize same : Expr.name () name = tree at operation
    cases operation with
    | single operation =>
      subst same
      exact ih operation
    | @join _ _ _ _ _ joint _ _ left operator right =>
      cases joint <;> cases same

theorem Operation.name (name : String) :
    (levels : List Level) → Operation levels [.identifier name] (.name () name)
  | [] => .operand (.call (.primary (.leaf .name)))
  | _ :: tighter => .single (Operation.name name tighter)

end Lox.Grammar

namespace Lox

theorem Expr.mapAll_eq {α β : Type} (f : α → β) (exprs : List (Expr α)) :
    Expr.mapAll f exprs = exprs.map (Expr.map f) := by
  induction exprs with
  | nil => rfl
  | cons expr exprs ih => rw [Expr.mapAll, ih, List.map_cons]

theorem Stmt.mapAll_eq {α β : Type} (f : α → β) (stmts : List (Stmt α)) :
    Stmt.mapAll f stmts = stmts.map (Stmt.map f) := by
  induction stmts with
  | nil => rfl
  | cons stmt stmts ih => rw [Stmt.mapAll, ih, List.map_cons]

section
variable {α : Type} (place : α)

@[simp] theorem Expr.bare_grouping (inner : Expr α) :
    (Expr.grouping place inner).bare = .grouping () inner.bare := rfl

@[simp] theorem Expr.bare_unary (operator : UnaryOperator) (operand : Expr α) :
    (Expr.unary place operator operand).bare = .unary () operator operand.bare := rfl

@[simp] theorem Expr.bare_assign (name : String) (value : Expr α) :
    (Expr.assign place name value).bare = .assign () name value.bare := rfl

@[simp] theorem Expr.bare_call (callee : Expr α) (arguments : List (Expr α)) :
    (Expr.call place callee arguments).bare = .call () callee.bare (arguments.map Expr.bare) := by
  rw [Expr.bare, Expr.map, Expr.mapAll_eq]
  rfl

@[simp] theorem Stmt.bare_expression (expr : Expr α) :
    (Stmt.expression place expr).bare = .expression () expr.bare := rfl

@[simp] theorem Stmt.bare_print (expr : Expr α) :
    (Stmt.print place expr).bare = .print () expr.bare := rfl

@[simp] theorem Stmt.bare_declare (name : String) (initial : Option (Expr α)) :
    (Stmt.declare place name initial).bare = .declare () name (initial.map Expr.bare) := rfl

@[simp] theorem Stmt.bare_block (body : List (Stmt α)) :
    (Stmt.block place body).bare = .block () (body.map Stmt.bare) := by
  rw [Stmt.bare, Stmt.map, Stmt.mapAll_eq]
  rfl

@[simp] theorem Stmt.bare_ifThen (condition : Expr α) (body : Stmt α) :
    (Stmt.ifThen place condition body).bare = .ifThen () condition.bare body.bare := rfl

@[simp] theorem Stmt.bare_ifElse (condition : Expr α) (body other : Stmt α) :
    (Stmt.ifElse place condition body other).bare =
      .ifElse () condition.bare body.bare other.bare := rfl

@[simp] theorem Stmt.bare_whileLoop (condition : Expr α) (body : Stmt α) :
    (Stmt.whileLoop place condition body).bare = .whileLoop () condition.bare body.bare := rfl

@[simp] theorem Stmt.bare_function (name : String) (params : List String) (body : List (Stmt α)) :
    (Stmt.function place name params body).bare = .function () name params (body.map Stmt.bare) := by
  rw [Stmt.bare, Stmt.map, Stmt.mapAll_eq]
  rfl

@[simp] theorem Stmt.bare_returnValue (value : Option (Expr α)) :
    (Stmt.returnValue place value).bare = .returnValue () (value.map Expr.bare) := rfl

@[simp] theorem Stmt.bare_breakLoop : (Stmt.breakLoop place).bare = .breakLoop () := rfl

@[simp] theorem Stmt.bare_continueLoop : (Stmt.continueLoop place).bare = .continueLoop () := rfl

end

@[simp] theorem Joint.bare_join (line : Nat) (left right : Expr Place) (joint : Joint) :
    (joint.join line left right).bare = Grammar.joined left.bare right.bare joint := by
  cases joint <;> rfl

@[simp] theorem Stmt.bare_forLoop (place : Place) (first : Option (Stmt Place)) (close : Place)
    (condition last : Option (Expr Place)) (bodySpan : Span) (body : Stmt Place) :
    (Stmt.forLoop place first (condition.getD (.literal close (.bool true))) last bodySpan body).bare =
      Grammar.forLoop (first.map Stmt.bare) (condition.map Expr.bare) (last.map Expr.bare)
        body.bare := by
  cases first <;> cases condition <;> cases last <;> rfl

end Lox
