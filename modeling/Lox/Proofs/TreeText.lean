import Lox.Proofs.SymbolicText

/-! Every tree is written as an S-expression, and that tells all of the tree but its places. -/

namespace Lox

def Literal.kind : Literal → TokenKind
  | .nil => .keyword .nilWord
  | .bool true => .keyword .trueWord
  | .bool false => .keyword .falseWord
  | .number value => .number value
  | .string contents => .string contents

def UnaryOperator.kind : UnaryOperator → TokenKind
  | .negate => .symbol .minus
  | .not => .symbol .bang

def BinaryOperator.kind : BinaryOperator → TokenKind
  | .add => .symbol .plus
  | .subtract => .symbol .minus
  | .multiply => .symbol .star
  | .divide => .symbol .slash
  | .equal => .symbol .equalEqual
  | .notEqual => .symbol .bangEqual
  | .less => .symbol .less
  | .lessEqual => .symbol .lessEqual
  | .greater => .symbol .greater
  | .greaterEqual => .symbol .greaterEqual

def LogicalOperator.kind : LogicalOperator → TokenKind
  | .and => .keyword .andWord
  | .or => .keyword .orWord

namespace Expr

variable {α : Type}

mutual

/-- The S-expression that an expression is written as. -/
def sexp : Expr α → Sexp
  | literal _ value => .atom value.kind
  | grouping _ inner => .list [.atom (.identifier "group"), inner.sexp]
  | unary _ operator operand => .list [.atom operator.kind, operand.sexp]
  | binary _ operator left right => .list [.atom operator.kind, left.sexp, right.sexp]
  | logical _ operator left right => .list [.atom operator.kind, left.sexp, right.sexp]
  | name _ label => .atom (.identifier label)
  | assign _ label value => .list [.atom (.symbol .equal), .atom (.identifier label), value.sexp]
  | call _ callee arguments =>
    .list (.atom (.identifier "call") :: callee.sexp :: sexpAll arguments)

def sexpAll : List (Expr α) → List Sexp
  | [] => []
  | expr :: rest => expr.sexp :: sexpAll rest

end

theorem sexpAll_eq_map (exprs : List (Expr α)) : sexpAll exprs = exprs.map sexp := by
  induction exprs with
  | nil => rfl
  | cons expr rest ih => rw [sexpAll, ih, List.map_cons]

end Expr

namespace Stmt

variable {α : Type}

mutual

/-- The S-expression that a statement is written as. -/
def sexp : Stmt α → Sexp
  | expression _ expr => .list [.atom (.identifier "expr"), expr.sexp]
  | print _ expr => .list [.atom (.keyword .printWord), expr.sexp]
  | declare _ name initial =>
    .list (.atom (.keyword .varWord) :: .atom (.identifier name) :: (initial.map Expr.sexp).toList)
  | block _ body => .list (.atom (.identifier "block") :: sexpAll body)
  | ifThen _ condition body => .list [.atom (.keyword .ifWord), condition.sexp, body.sexp]
  | ifElse _ condition body other =>
    .list [.atom (.keyword .ifWord), condition.sexp, body.sexp, other.sexp]
  | whileLoop _ condition body => .list [.atom (.keyword .whileWord), condition.sexp, body.sexp]
  | function _ name params body =>
    .list (.atom (.keyword .funWord) :: .atom (.identifier name) ::
      .list (params.map fun param => .atom (.identifier param)) :: sexpAll body)
  | returnValue _ value =>
    .list (.atom (.keyword .returnWord) :: (value.map Expr.sexp).toList)
  | breakLoop _ => .list [.atom (.keyword .breakWord)]
  | continueLoop _ => .list [.atom (.keyword .continueWord)]

def sexpAll : List (Stmt α) → List Sexp
  | [] => []
  | stmt :: rest => stmt.sexp :: sexpAll rest

end

theorem sexpAll_eq_map (stmts : List (Stmt α)) : sexpAll stmts = stmts.map sexp := by
  induction stmts with
  | nil => rfl
  | cons stmt rest ih => rw [sexpAll, ih, List.map_cons]

end Stmt

theorem Literal.toList_text (value : Literal) : value.text.toList = value.kind.spelled := by
  cases value with
  | nil => rfl
  | bool value => cases value <;> rfl
  | number value => rfl
  | string contents => simp [text, kind, TokenKind.spelled, toString]

theorem UnaryOperator.toList_symbol (operator : UnaryOperator) :
    operator.symbol.toList = operator.kind.spelled := by
  cases operator <;> rfl

theorem BinaryOperator.toList_symbol (operator : BinaryOperator) :
    operator.symbol.toList = operator.kind.spelled := by
  cases operator <;> rfl

theorem LogicalOperator.toList_symbol (operator : LogicalOperator) :
    operator.symbol.toList = operator.kind.spelled := by
  cases operator <;> rfl

namespace Expr

variable {α : Type}

mutual

theorem toList_text : ∀ expr : Expr α, expr.text.toList = expr.sexp.text
  | literal _ value => value.toList_text
  | grouping _ inner => by simp [text, sexp, TokenKind.spelled, toString, toList_text inner]
  | unary _ operator operand => by
    simp [text, sexp, toString, operator.toList_symbol, toList_text operand]
  | binary _ operator left right | logical _ operator left right => by
    simp [text, sexp, toString, operator.toList_symbol, toList_text left, toList_text right]
  | name _ label => rfl
  | assign _ label value => by
    simp [text, sexp, TokenKind.spelled, Symbol.spelling, toString, toList_text value]
  | call _ callee arguments => by
    simp [text, sexp, TokenKind.spelled, toString, toList_text callee, toList_textAll arguments]

theorem toList_textAll : ∀ exprs : List (Expr α),
    (textAll exprs).toList = Sexp.behind (sexpAll exprs)
  | [] => rfl
  | expr :: rest => by
    simp [textAll, sexpAll, toString, toList_text expr, toList_textAll rest]

end
end Expr

namespace Stmt

variable {α : Type}

theorem toList_params (params : List String) : [' '].intercalate (params.map String.toList) =
    Sexp.inner (params.map fun param => .atom (.identifier param)) := by
  induction params with
  | nil => rfl
  | cons first rest ih =>
    cases rest with
    | nil => simp [List.intercalate, Sexp.inner, TokenKind.spelled]
    | cons second rest =>
      simp only [List.intercalate, Sexp.inner, List.map_cons, Sexp.text_atom, Sexp.behind_cons,
        List.intersperse_cons_cons, List.flatten_cons] at ih ⊢
      rw [ih]
      rfl

mutual

theorem toList_text : ∀ stmt : Stmt α, stmt.text.toList = stmt.sexp.text
  | expression _ expr | print _ expr | declare _ _ (some expr) | returnValue _ (some expr) => by
    simp [text, sexp, TokenKind.spelled, Keyword.spelling, toString, expr.toList_text]
  | declare _ _ none | returnValue _ none | breakLoop _ | continueLoop _ => by
    simp [text, sexp, TokenKind.spelled, Keyword.spelling, toString]
  | block _ body => by
    simp [text, sexp, TokenKind.spelled, toString, toList_textAll body]
  | ifThen _ condition body | whileLoop _ condition body => by
    simp [text, sexp, TokenKind.spelled, Keyword.spelling, toString, condition.toList_text,
      toList_text body]
  | ifElse _ condition body other => by
    simp [text, sexp, TokenKind.spelled, Keyword.spelling, toString, condition.toList_text,
      toList_text body, toList_text other]
  | function _ name params body => by
    simp [text, sexp, Sexp.text, TokenKind.spelled, Keyword.spelling, toString, toList_params,
      toList_textAll body]

theorem toList_textAll : ∀ stmts : List (Stmt α),
    (textAll stmts).toList = Sexp.behind (sexpAll stmts)
  | [] => rfl
  | stmt :: rest => by
    simp [textAll, sexpAll, toString, toList_text stmt, toList_textAll rest]

end

theorem toList_programText (program : List (Stmt α)) :
    (programText program).toList = Sexp.lines (sexpAll program) := by
  induction program with
  | nil => rfl
  | cons stmt rest ih =>
    rw [programText, List.map_cons, String.join_cons, String.toList_append, sexpAll, Sexp.lines,
      ← ih]
    simp [toList_text stmt, programText]

end Stmt

namespace Literal

theorem kind_injective {first second : Literal} (same : first.kind = second.kind) :
    first = second := by
  rcases first with _ | (_ | _) | _ | _ <;> rcases second with _ | (_ | _) | _ | _ <;>
    cases same <;> rfl

@[simp] theorem kind_ne_identifier (value : Literal) (name : String) :
    value.kind ≠ .identifier name := by
  rcases value with _ | (_ | _) | _ | _ <;> nofun

end Literal

@[simp] theorem UnaryOperator.kind_ne_identifier (operator : UnaryOperator) (name : String) :
    operator.kind ≠ .identifier name := by
  cases operator <;> nofun

theorem UnaryOperator.kind_injective {first second : UnaryOperator}
    (same : first.kind = second.kind) : first = second := by
  cases first <;> cases second <;> first | rfl | cases same

namespace BinaryOperator

@[simp] theorem kind_ne_identifier (operator : BinaryOperator) (name : String) :
    operator.kind ≠ .identifier name := by
  cases operator <;> nofun

@[simp] theorem kind_ne_equal (operator : BinaryOperator) : operator.kind ≠ .symbol .equal := by
  cases operator <;> nofun

@[simp] theorem kind_ne_logical (operator : BinaryOperator) (other : LogicalOperator) :
    operator.kind ≠ other.kind := by
  cases operator <;> cases other <;> nofun

theorem kind_injective {first second : BinaryOperator}
    (same : first.kind = second.kind) : first = second := by
  cases first <;> cases second <;> first | rfl | cases same

end BinaryOperator

namespace LogicalOperator

@[simp] theorem kind_ne_identifier (operator : LogicalOperator) (name : String) :
    operator.kind ≠ .identifier name := by
  cases operator <;> nofun

@[simp] theorem kind_ne_symbol (operator : LogicalOperator) (sign : Symbol) :
    operator.kind ≠ .symbol sign := by
  cases operator <;> nofun

@[simp] theorem kind_ne_binary (operator : LogicalOperator) (other : BinaryOperator) :
    operator.kind ≠ other.kind :=
  (other.kind_ne_logical operator).symm

theorem kind_injective {first second : LogicalOperator}
    (same : first.kind = second.kind) : first = second := by
  cases first <;> cases second <;> first | rfl | cases same

end LogicalOperator

namespace Expr
mutual

theorem sexp_injective : ∀ {first second : Expr Unit}, first.sexp = second.sexp → first = second
  | literal _ value, second, same => by
    cases second <;> simp [sexp] at same
    rw [Literal.kind_injective same]
  | name _ label, second, same => by
    cases second <;> simp [sexp, @eq_comm TokenKind (.identifier label)] at same
    rw [same]
  | grouping _ inner, second, same => by
    cases second <;> simp [sexp, @eq_comm TokenKind (.identifier "group")] at same
    rw [sexp_injective same]
  | unary _ operator operand, second, same => by
    cases second <;> simp [sexp] at same
    rw [UnaryOperator.kind_injective same.1, sexp_injective same.2]
  | binary _ operator left right, second, same => by
    cases second <;> simp [sexp] at same
    rw [BinaryOperator.kind_injective same.1, sexp_injective same.2.1, sexp_injective same.2.2]
  | logical _ operator left right, second, same => by
    cases second <;> simp [sexp] at same
    rw [LogicalOperator.kind_injective same.1, sexp_injective same.2.1, sexp_injective same.2.2]
  | assign _ label value, second, same => by
    cases second <;> simp [sexp, @eq_comm TokenKind (.symbol .equal)] at same
    rw [same.1, sexp_injective same.2]
  | call _ callee arguments, second, same => by
    cases second <;> simp [sexp, @eq_comm TokenKind (.identifier "call")] at same
    rw [sexp_injective same.1, sexpAll_injective same.2]

theorem sexpAll_injective : ∀ {first second : List (Expr Unit)},
    sexpAll first = sexpAll second → first = second
  | [], second, same => by
    cases second <;> simp [sexpAll] at same
    rfl
  | expr :: rest, second, same => by
    cases second <;> simp [sexpAll] at same
    rw [sexp_injective same.1, sexpAll_injective same.2]
end
end Expr

namespace Stmt

theorem optional_injective {first second : Option (Expr Unit)}
    (same : (first.map Expr.sexp).toList = (second.map Expr.sexp).toList) : first = second := by
  cases first <;> cases second <;> simp at same
  · rfl
  · rw [Expr.sexp_injective same]

theorem params_injective {first second : List String}
    (same : (first.map fun param => Sexp.atom (.identifier param)) =
      second.map fun param => Sexp.atom (.identifier param)) : first = second := by
  apply (List.map_inj_right _).mp same
  intro param other equal
  exact TokenKind.identifier.inj (Sexp.atom.inj equal)

mutual

theorem sexp_injective : ∀ {first second : Stmt Unit}, first.sexp = second.sexp → first = second
  | expression _ expr, second, same => by
    cases second <;> simp [sexp] at same
    rw [Expr.sexp_injective same]
  | print _ expr, second, same => by
    cases second <;> simp [sexp] at same
    rw [Expr.sexp_injective same]
  | declare _ name initial, second, same => by
    cases second <;> simp [sexp] at same
    rw [same.1, optional_injective same.2]
  | block _ body, second, same => by
    cases second <;> simp [sexp] at same
    rw [sexpAll_injective same]
  | ifThen _ condition body, second, same => by
    cases second <;> simp [sexp] at same
    rw [Expr.sexp_injective same.1, sexp_injective same.2]
  | ifElse _ condition body other, second, same => by
    cases second <;> simp [sexp] at same
    rw [Expr.sexp_injective same.1, sexp_injective same.2.1, sexp_injective same.2.2]
  | whileLoop _ condition body, second, same => by
    cases second <;> simp [sexp] at same
    rw [Expr.sexp_injective same.1, sexp_injective same.2]
  | function _ name params body, second, same => by
    cases second <;> simp [sexp] at same
    rw [same.1, params_injective same.2.1, sexpAll_injective same.2.2]
  | returnValue _ value, second, same => by
    cases second <;> simp [sexp] at same
    rw [optional_injective same]
  | breakLoop _, second, same => by
    cases second <;> simp [sexp] at same
    rfl
  | continueLoop _, second, same => by
    cases second <;> simp [sexp] at same
    rfl

theorem sexpAll_injective : ∀ {first second : List (Stmt Unit)},
    sexpAll first = sexpAll second → first = second
  | [], second, same => by
    cases second <;> simp [sexpAll] at same
    rfl
  | stmt :: rest, second, same => by
    cases second <;> simp [sexpAll] at same
    rw [sexp_injective same.1, sexpAll_injective same.2]

end
end Stmt

mutual

/-- Places are not written. -/
theorem Expr.sexp_map {α β : Type} (f : α → β) : ∀ expr : Expr α, (expr.map f).sexp = expr.sexp
  | .literal _ _ | .name _ _ => rfl
  | .grouping _ inner | .unary _ _ inner | .assign _ _ inner => by
    simp only [Expr.map, Expr.sexp, Expr.sexp_map f inner]
  | .binary _ _ left right | .logical _ _ left right => by
    simp only [Expr.map, Expr.sexp, Expr.sexp_map f left, Expr.sexp_map f right]
  | .call _ callee arguments => by
    simp only [Expr.map, Expr.sexp, Expr.sexp_map f callee, Expr.sexpAll_map f arguments]

theorem Expr.sexpAll_map {α β : Type} (f : α → β) : ∀ exprs : List (Expr α),
    Expr.sexpAll (Expr.mapAll f exprs) = Expr.sexpAll exprs
  | [] => rfl
  | expr :: rest => by
    simp only [Expr.mapAll, Expr.sexpAll, Expr.sexp_map f expr, Expr.sexpAll_map f rest]

end

namespace Stmt

variable {α β : Type} (f : α → β)

theorem optional_map (value : Option (Expr α)) :
    (value.map (Expr.map f)).map Expr.sexp = value.map Expr.sexp := by
  cases value with
  | none => rfl
  | some expr => exact congrArg some (expr.sexp_map f)

mutual

theorem sexp_map : ∀ stmt : Stmt α, (stmt.map f).sexp = stmt.sexp
  | expression _ expr | print _ expr => by simp only [map, sexp, expr.sexp_map]
  | declare _ _ value | returnValue _ value => by simp only [map, sexp, optional_map]
  | block _ body | function _ _ _ body => by simp only [map, sexp, sexpAll_map body]
  | ifThen _ condition body | whileLoop _ condition body => by
    simp only [map, sexp, condition.sexp_map, sexp_map body]
  | ifElse _ condition body other => by
    simp only [map, sexp, condition.sexp_map, sexp_map body, sexp_map other]
  | breakLoop _ | continueLoop _ => rfl

theorem sexpAll_map : ∀ stmts : List (Stmt α), sexpAll (mapAll f stmts) = sexpAll stmts
  | [] => rfl
  | stmt :: rest => by simp only [mapAll, sexpAll, sexp_map stmt, sexpAll_map rest]

end

theorem sexpAll_bare (program : List (Stmt α)) : sexpAll (program.map bare) = sexpAll program := by
  induction program with
  | nil => rfl
  | cons stmt rest ih => rw [List.map_cons, sexpAll, ih, bare, sexp_map, sexpAll]

end Stmt
end Lox
