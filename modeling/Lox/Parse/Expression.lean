import Lox.Parse.Parser

/-!
Parsing expressions. Assignment binds loosest and to the right; then come the
levels of operators, each of which binds to the left; then prefixed operators,
calls and primary expressions.
-/

namespace Lox

/-- An operator that stands between two operands. -/
inductive Joint where
  | logical (operator : LogicalOperator)
  | binary (operator : BinaryOperator)
  deriving DecidableEq, Repr

/-- The line of such an expression is the line of its operator. -/
def Joint.join (line : Nat) (left right : Expr Place) (joint : Joint) : Expr Place :=
  let place : Place := ⟨line, left.place.span.merge right.place.span⟩
  match joint with
  | .logical operator => .logical place operator left right
  | .binary operator => .binary place operator left right

/-- How tightly operators bind. -/
inductive Level where
  | or | and | equality | comparison | term | factor
  deriving DecidableEq, Repr

namespace Level

/-- The levels from the loosest to the tightest. -/
def all : List Level := [.or, .and, .equality, .comparison, .term, .factor]

/-- The operator of this level that a token writes. -/
def joint? : Level → TokenKind → Option Joint
  | .or, .keyword .orWord => some (.logical .or)
  | .and, .keyword .andWord => some (.logical .and)
  | .equality, .symbol .bangEqual => some (.binary .notEqual)
  | .equality, .symbol .equalEqual => some (.binary .equal)
  | .comparison, .symbol .greater => some (.binary .greater)
  | .comparison, .symbol .greaterEqual => some (.binary .greaterEqual)
  | .comparison, .symbol .less => some (.binary .less)
  | .comparison, .symbol .lessEqual => some (.binary .lessEqual)
  | .term, .symbol .plus => some (.binary .add)
  | .term, .symbol .minus => some (.binary .subtract)
  | .factor, .symbol .star => some (.binary .multiply)
  | .factor, .symbol .slash => some (.binary .divide)
  | _, _ => none

end Level

def TokenKind.unaryOperator? : TokenKind → Option UnaryOperator
  | .symbol .bang => some .not
  | .symbol .minus => some .negate
  | _ => none

/-- The expression that a single token is. -/
def Token.leaf? (token : Token) : Option (Expr Place) :=
  let place : Place := ⟨token.line, token.span⟩
  match token.kind with
  | .keyword .falseWord => some (.literal place (.bool false))
  | .keyword .trueWord => some (.literal place (.bool true))
  | .keyword .nilWord => some (.literal place .nil)
  | .number value => some (.literal place (.number value))
  | .string contents => some (.literal place (.string contents))
  | .identifier name => some (.name place name)
  | _ => none

namespace Parser

mutual

/-- Only a bare name can be assigned to. Otherwise the value alone is kept, and
parsing goes on. -/
def expression : Nat → Parser (Expr Place)
  | 0 => throw .exhausted
  | fuel + 1 => do
    let target ← chain fuel Level.all
    let equals ← current
    if ← eat (.symbol .equal) then
      let value ← expression fuel
      match target with
      | .name place label =>
        return .assign ⟨place.line, place.span.merge value.place.span⟩ label value
      | _ =>
        report (.ofToken equals .invalidTarget "invalid assignment target")
        return value
    else
      return target

/-- Operands that the operators of the first level join, themselves built with
the tighter levels. -/
def chain : Nat → List Level → Parser (Expr Place)
  | 0, _ => throw .exhausted
  | fuel + 1, [] => unary fuel
  | fuel + 1, level :: tighter => do
    let left ← chain fuel tighter
    chainRest fuel level tighter left

def chainRest : Nat → Level → List Level → Expr Place → Parser (Expr Place)
  | 0, _, _, _ => throw .exhausted
  | fuel + 1, level, tighter, left => do
    let token ← current
    match level.joint? token.kind with
    | none => return left
    | some joint =>
      advance
      let right ← chain fuel tighter
      chainRest fuel level tighter (joint.join token.line left right)

def unary : Nat → Parser (Expr Place)
  | 0 => throw .exhausted
  | fuel + 1 => do
    let token ← current
    match token.kind.unaryOperator? with
    | some operator =>
      advance
      let operand ← unary fuel
      return .unary ⟨token.line, token.span.merge operand.place.span⟩ operator operand
    | none =>
      let callee ← primary fuel
      calls fuel callee

/-- The calls behind a callee. A call is on the line of its closing
parenthesis. -/
def calls : Nat → Expr Place → Parser (Expr Place)
  | 0, _ => throw .exhausted
  | fuel + 1, callee => do
    if ← eat (.symbol .leftParen) then
      let arguments ← if ← check (.symbol .rightParen) then pure [] else arguments fuel #[]
      let close ← expect (.symbol .rightParen) "expected ')' after arguments"
      calls fuel (.call ⟨close.line, callee.place.span.merge close.span⟩ callee arguments)
    else
      return callee

/-- The arguments of a call, of which there is at least one more. -/
def arguments : Nat → Array (Expr Place) → Parser (List (Expr Place))
  | 0, _ => throw .exhausted
  | fuel + 1, before => do
    if maxEntries ≤ before.size then
      reportHere .tooManyEntries "can't have more than 255 arguments"
    let argument ← expression fuel
    if ← eat (.symbol .comma) then arguments fuel (before.push argument)
    else return (before.push argument).toList

def primary : Nat → Parser (Expr Place)
  | 0 => throw .exhausted
  | fuel + 1 => do
    let token ← current
    if ← eat (.symbol .leftParen) then
      let inner ← expression fuel
      let close ← expect (.symbol .rightParen) "expected enclosing ')' after expression"
      return .grouping ⟨token.line, token.span.merge close.span⟩ inner
    else
      match token.leaf? with
      | some leaf =>
        advance
        return leaf
      | none => failHere .expectedExpression "expected expression"

end

end Parser
end Lox
