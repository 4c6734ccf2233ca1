/-!
The operators of expressions and how they are written.
-/

namespace Lox

inductive UnaryOperator where
  | negate | not
  deriving DecidableEq, Repr

namespace UnaryOperator

def all : List UnaryOperator := [.negate, .not]

def symbol : UnaryOperator → String
  | .negate => "-"
  | .not => "!"

def ofSymbol? (text : String) : Option UnaryOperator :=
  all.find? fun operator => operator.symbol == text

end UnaryOperator

inductive BinaryOperator where
  | add | subtract | multiply | divide
  | equal | notEqual | less | lessEqual | greater | greaterEqual
  deriving DecidableEq, Repr

namespace BinaryOperator

def all : List BinaryOperator :=
  [.add, .subtract, .multiply, .divide, .equal, .notEqual, .less, .lessEqual, .greater,
    .greaterEqual]

def symbol : BinaryOperator → String
  | .add => "+"
  | .subtract => "-"
  | .multiply => "*"
  | .divide => "/"
  | .equal => "=="
  | .notEqual => "!="
  | .less => "<"
  | .lessEqual => "<="
  | .greater => ">"
  | .greaterEqual => ">="

def ofSymbol? (text : String) : Option BinaryOperator :=
  all.find? fun operator => operator.symbol == text

/-- Whether the operator orders its operands. -/
def isComparison : BinaryOperator → Bool
  | .less | .lessEqual | .greater | .greaterEqual => true
  | _ => false

end BinaryOperator

inductive LogicalOperator where
  | and | or
  deriving DecidableEq, Repr

def LogicalOperator.symbol : LogicalOperator → String
  | .and => "and"
  | .or => "or"

end Lox
