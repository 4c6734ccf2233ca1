import Lox.Proofs.ParserSeam
import Lox.Proofs.SourceSeam
import Lox.Proofs.TreeText

/-! What the trees that the grammar derives are written with: their tokens, but for the symbols, and
the words, keywords and operators that trees have by themselves. -/

namespace Lox

namespace Sexp

/-- What trees have by themselves is as described. -/
structure Admits (atoms : TokenKind → Prop) : Prop where
  word : ∀ name ∈ ["call", "group", "expr", "block"], atoms (.identifier name)
  keyword : ∀ word, atoms (.keyword word)
  symbol : ∀ sign, sign ≠ .leftParen → sign ≠ .rightParen → atoms (.symbol sign)

namespace Admits

variable {atoms : TokenKind → Prop} (own : Admits atoms)
include own

theorem ofWord {name : String} (named : name ∈ ["call", "group", "expr", "block"]) :
    Of atoms (.atom (.identifier name)) :=
  .atom (own.word name named)

theorem ofKeyword (word : Keyword) : Of atoms (.atom (.keyword word)) := .atom (own.keyword word)

theorem ofSymbol {sign : Symbol} (opens : sign ≠ .leftParen) (closes : sign ≠ .rightParen) :
    Of atoms (.atom (.symbol sign)) :=
  .atom (own.symbol sign opens closes)

end Admits
end Sexp

namespace Grammar
open Sexp

/-- So are the tokens of a phrase, but for the symbols. -/
structure Supplies (atoms : TokenKind → Prop) (phrase : List TokenKind) : Prop where
  own : Admits atoms
  tokens : ∀ kind ∈ phrase, (∀ sign, kind ≠ .symbol sign) → atoms kind

variable {atoms : TokenKind → Prop} {phrase front back : List TokenKind} {kind : TokenKind}

namespace Supplies

theorem append (supplied : Supplies atoms (front ++ back)) :
    Supplies atoms front ∧ Supplies atoms back :=
  have ⟨first, second⟩ := List.forall_mem_append.mp supplied.tokens
  ⟨⟨supplied.own, first⟩, ⟨supplied.own, second⟩⟩

theorem tail (supplied : Supplies atoms (kind :: back)) : Supplies atoms back :=
  ⟨supplied.own, (List.forall_mem_cons.mp supplied.tokens).2⟩

theorem first (supplied : Supplies atoms (kind :: back)) (other : ∀ sign, kind ≠ .symbol sign) :
    Of atoms (.atom kind) :=
  .atom (supplied.tokens kind List.mem_cons_self other)

end Supplies

theorem Leaf.written {tree : Expr Unit} (leaf : Leaf kind tree)
    (supplied : Supplies atoms (kind :: back)) : Of atoms tree.sexp := by
  cases leaf <;> exact supplied.first nofun

theorem joined_written (own : Admits atoms) {left right : Expr Unit} (first : Of atoms left.sexp)
    (second : Of atoms right.sexp) (joint : Joint) : Of atoms (joined left right joint).sexp := by
  have operands : AllOf atoms [left.sexp, right.sexp] := .cons first (.cons second .nil)
  cases joint with
  | logical operator => cases operator <;> exact .list (.cons (own.ofKeyword _) operands)
  | binary operator =>
    cases operator <;> exact .list (.cons (own.ofSymbol (by decide) (by decide)) operands)

mutual

theorem Expression.written : ∀ {phrase : List TokenKind} {tree : Expr Unit},
    Expression phrase tree → Supplies atoms phrase → Of atoms tree.sexp
  | _, _, .assign value, supplied => by
    have assigned := value.written supplied.tail.tail
    have sign : Of atoms (.atom (.symbol .equal)) :=
      supplied.own.ofSymbol (by decide) (by decide)
    exact .list (.cons sign (.cons (supplied.first nofun) (.cons assigned .nil)))
  | _, _, .operation operation, supplied => operation.written supplied

theorem Operation.written : ∀ {levels : List Level} {phrase : List TokenKind} {tree : Expr Unit},
    Operation levels phrase tree → Supplies atoms phrase → Of atoms tree.sexp
  | _, _, _, .single operation, supplied => operation.written supplied
  | _, _, _, .join left _ right, supplied => by
    obtain ⟨first, rest⟩ := supplied.append
    exact joined_written supplied.own (left.written first) (right.written rest.tail) _
  | _, _, _, .operand operand, supplied => operand.written supplied

theorem Unary.written : ∀ {phrase : List TokenKind} {tree : Expr Unit},
    Unary phrase tree → Supplies atoms phrase → Of atoms tree.sexp
  | _, _, .prefixed operator operand, supplied => by
    have inner := operand.written supplied.tail
    cases operator <;>
      exact .list (.cons (supplied.own.ofSymbol (by decide) (by decide)) (.cons inner .nil))
  | _, _, .call call, supplied => call.written supplied

theorem Call.written : ∀ {phrase : List TokenKind} {tree : Expr Unit},
    Call phrase tree → Supplies atoms phrase → Of atoms tree.sexp
  | _, _, .primary primary, supplied => primary.written supplied
  | _, _, .call callee arguments _, supplied => by
    obtain ⟨first, rest⟩ := supplied.append
    obtain ⟨second, -⟩ := rest.tail.append
    exact .list (.cons (supplied.own.ofWord (by decide))
      (.cons (callee.written first) (arguments.written second)))

theorem Arguments.written : ∀ {phrase : List TokenKind} {trees : List (Expr Unit)},
    Arguments phrase trees → Supplies atoms phrase → AllOf atoms (Expr.sexpAll trees)
  | _, _, .none, _ => .nil
  | _, _, .some further, supplied => further.written supplied

theorem ArgumentList.written : ∀ {phrase : List TokenKind} {trees : List (Expr Unit)},
    ArgumentList phrase trees → Supplies atoms phrase → AllOf atoms (Expr.sexpAll trees)
  | _, _, .last argument, supplied => .cons (argument.written supplied) .nil
  | _, _, .more argument further, supplied => by
    obtain ⟨first, rest⟩ := supplied.append
    exact .cons (argument.written first) (further.written rest.tail)

theorem Primary.written : ∀ {phrase : List TokenKind} {tree : Expr Unit},
    Primary phrase tree → Supplies atoms phrase → Of atoms tree.sexp
  | _, _, .leaf leaf, supplied => leaf.written supplied
  | _, _, .grouping expr, supplied => by
    obtain ⟨first, -⟩ := supplied.tail.append
    exact .list (.cons (supplied.own.ofWord (by decide)) (.cons (expr.written first) .nil))

end

theorem Optional.written {tree : Option (Expr Unit)} (optional : Optional phrase tree)
    (supplied : Supplies atoms phrase) : AllOf atoms (tree.map Expr.sexp).toList := by
  cases optional with
  | none => exact .nil
  | some expr => exact .cons (expr.written supplied) .nil

theorem Variable.written {tree : Stmt Unit} (declared : Variable phrase tree)
    (supplied : Supplies atoms phrase) : Of atoms tree.sexp := by
  cases declared with
  | declare initial =>
    obtain ⟨value, -⟩ := supplied.tail.tail.append
    apply Of.list
    apply AllOf.cons (supplied.own.ofKeyword _)
    apply AllOf.cons (supplied.tail.first nofun)
    cases initial with
    | none => exact .nil
    | some expr => exact .cons (expr.written value.tail) .nil

theorem NameList.written {names : List String} (further : NameList phrase names)
    (supplied : Supplies atoms phrase) :
    AllOf atoms (names.map fun name => .atom (.identifier name)) := by
  induction further with
  | last => exact .cons (supplied.first nofun) .nil
  | more further ih => exact .cons (supplied.first nofun) (ih supplied.tail.tail)

theorem Parameters.written {names : List String} (params : Parameters phrase names)
    (supplied : Supplies atoms phrase) :
    AllOf atoms (names.map fun name => .atom (.identifier name)) := by
  cases params with
  | none => exact .nil
  | some further => exact further.written supplied

theorem FirstClause.written {tree : Option (Stmt Unit)} (first : FirstClause phrase tree)
    (supplied : Supplies atoms phrase) : AllOf atoms (Stmt.sexpAll tree.toList) := by
  cases first with
  | none => exact .nil
  | declare declared => exact .cons (declared.written supplied) .nil
  | expression expr =>
    have value := expr.written supplied.append.1
    exact .cons (.list (.cons (supplied.own.ofWord (by decide)) (.cons value .nil))) .nil

theorem forLoop_written (own : Admits atoms) {first : Option (Stmt Unit)}
    {condition last : Option (Expr Unit)} {body : Stmt Unit}
    (before : AllOf atoms (Stmt.sexpAll first.toList))
    (holds : AllOf atoms (condition.map Expr.sexp).toList)
    (step : AllOf atoms (last.map Expr.sexp).toList) (inner : Of atoms body.sexp) :
    Of atoms (forLoop first condition last body).sexp := by
  have test : Of atoms (condition.getD (.literal () (.bool true))).sexp := by
    cases condition with
    | none => exact own.ofKeyword .trueWord
    | some expr =>
      cases holds with
      | cons first later => exact first
  have after : AllOf atoms (Stmt.sexpAll (last.map (Stmt.expression ())).toList) := by
    cases last with
    | none => exact .nil
    | some expr => exact .cons (.list (.cons (own.ofWord (by decide)) step)) .nil
  have round : AllOf atoms [_] :=
    .cons (.list (.cons (own.ofWord (by decide : "block" ∈ _)) (.cons inner after))) .nil
  have loop : AllOf atoms [_] :=
    .cons (.list (.cons (own.ofKeyword .whileWord) (.cons test round))) .nil
  rw [forLoop, Stmt.sexp, Stmt.sexpAll_eq_map, List.map_append, ← Stmt.sexpAll_eq_map]
  exact .list (.cons (own.ofWord (by decide)) (before.append loop))

mutual

theorem Statement.written : ∀ {ending : Bool} {phrase : List TokenKind} {tree : Stmt Unit},
    Statement ending phrase tree → Supplies atoms phrase → Of atoms tree.sexp
  | _, _, _, .expression expr, supplied => by
    have value := expr.written supplied.append.1
    exact .list (.cons (supplied.own.ofWord (by decide)) (.cons value .nil))
  | _, _, _, .print expr, supplied => by
    have value := expr.written supplied.tail.append.1
    exact .list (.cons (supplied.own.ofKeyword _) (.cons value .nil))
  | _, _, _, .ifThen condition body, supplied => by
    obtain ⟨first, rest⟩ := supplied.tail.tail.append
    have test := condition.written first
    have inner := body.written rest.tail
    exact .list (.cons (supplied.own.ofKeyword _) (.cons test (.cons inner .nil)))
  | _, _, _, .ifElse condition body other, supplied => by
    obtain ⟨first, rest⟩ := supplied.tail.tail.append
    obtain ⟨second, rest⟩ := rest.tail.append
    have branches : AllOf atoms [_, _] :=
      .cons (body.written second) (.cons (other.written rest.tail) .nil)
    exact .list (.cons (supplied.own.ofKeyword _) (.cons (condition.written first) branches))
  | _, _, _, .whileLoop condition body, supplied => by
    obtain ⟨first, rest⟩ := supplied.tail.tail.append
    have test := condition.written first
    have inner := body.written rest.tail
    exact .list (.cons (supplied.own.ofKeyword _) (.cons test (.cons inner .nil)))
  | _, _, _, .forLoop first condition last body, supplied => by
    obtain ⟨front, rest⟩ := supplied.tail.tail.append
    obtain ⟨middle, rest⟩ := rest.append
    obtain ⟨back, rest⟩ := rest.tail.append
    exact forLoop_written supplied.own (first.written front) (condition.written middle)
      (last.written back) (body.written rest.tail)
  | _, _, _, .returnValue value, supplied =>
    .list (.cons (supplied.own.ofKeyword _)
      (value.written supplied.tail.append.1))
  | _, _, _, .breakLoop, supplied => .list (.cons (supplied.own.ofKeyword _) .nil)
  | _, _, _, .continueLoop, supplied => .list (.cons (supplied.own.ofKeyword _) .nil)
  | _, _, _, .block body, supplied =>
    .list (.cons (supplied.own.ofWord (by decide))
      (body.written supplied.tail.append.1))

theorem Declaration.written : ∀ {phrase : List TokenKind} {tree : Stmt Unit},
    Declaration phrase tree → Supplies atoms phrase → Of atoms tree.sexp
  | _, _, .declare declared, supplied => declared.written supplied
  | _, _, .function params _ body, supplied => by
    obtain ⟨front, rest⟩ := supplied.tail.tail.tail.append
    obtain ⟨back, -⟩ := rest.tail.tail.append
    exact .list (.cons (supplied.own.ofKeyword _) (.cons (supplied.tail.first nofun)
      (.cons (.list (params.written front)) (body.written back))))
  | _, _, .statement stmt, supplied => stmt.written supplied

theorem Declarations.written : ∀ {phrase : List TokenKind} {trees : List (Stmt Unit)},
    Declarations phrase trees → Supplies atoms phrase → AllOf atoms (Stmt.sexpAll trees)
  | _, _, .nil, _ => .nil
  | _, _, .cons first further, supplied => by
    obtain ⟨front, back⟩ := supplied.append
    exact .cons (first.written front) (further.written back)

end

end Grammar

/-- What a source without errors is parsed to is written with its tokens, but for the symbols, and
with what trees have by themselves. -/
theorem Program.written {source : String} {program : Program} {atoms : TokenKind → Prop}
    (accepted : Program.ofSource source = .ok program) (own : Sexp.Admits atoms)
    (tokens : ∀ token ∈ (Scan.ofSource source).tokens, token.kind ≠ .eof →
      (∀ sign, token.kind ≠ .symbol sign) → atoms token.kind) :
    Sexp.AllOf atoms (Stmt.sexpAll program) := by
  obtain ⟨-, clean, rfl⟩ := Program.ofSource_eq_ok.mp accepted
  obtain ⟨phrase, kinds, derived⟩ := Parsed.derived_of_clean (Scan.tokens_closed source) clean
  obtain ⟨line, offset, whole⟩ := Scan.tokens_eq source
  rw [whole, List.map_append] at kinds
  have same : (Scan.own source).map Token.kind = phrase := List.append_cancel_right kinds
  rw [← Stmt.sexpAll_bare]
  apply derived.written
  refine ⟨own, fun kind member other => ?_⟩
  obtain ⟨token, inside, rfl⟩ := List.mem_map.mp (same ▸ member)
  have inner : token.kind ≠ .eof := by
    intro last
    rw [← same, last] at member
    exact Scan.own_ne_eof source member
  have among : token ∈ (Scan.ofSource source).tokens := by
    rw [whole]
    exact List.mem_append_left _ inside
  exact tokens token among inner other

end Lox
