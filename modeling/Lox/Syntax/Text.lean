import Lox.Number.Text
import Lox.Syntax

/-!
Trees written as S-expressions, one line for each statement of a program. The
text shows everything but the places.
-/

namespace Lox

def Literal.text : Literal → String
  | .nil => "nil"
  | .bool true => "true"
  | .bool false => "false"
  | .number value => Number.text value
  | .string contents => s!"\"{contents}\""

namespace Expr

variable {α : Type}

mutual

def text : Expr α → String
  | literal _ value => value.text
  | grouping _ inner => s!"(group {inner.text})"
  | unary _ operator operand => s!"({operator.symbol} {operand.text})"
  | binary _ operator left right => s!"({operator.symbol} {left.text} {right.text})"
  | logical _ operator left right => s!"({operator.symbol} {left.text} {right.text})"
  | name _ label => label
  | assign _ label value => s!"(= {label} {value.text})"
  | call _ callee arguments => s!"(call {callee.text}{textAll arguments})"

/-- Each expression behind a space. -/
def textAll : List (Expr α) → String
  | [] => ""
  | expr :: rest => s!" {expr.text}{textAll rest}"

end
end Expr

namespace Stmt

variable {α : Type}

mutual

def text : Stmt α → String
  | expression _ expr => s!"(expr {expr.text})"
  | print _ expr => s!"(print {expr.text})"
  | declare _ name none => s!"(var {name})"
  | declare _ name (some initial) => s!"(var {name} {initial.text})"
  | block _ body => s!"(block{textAll body})"
  | ifThen _ condition body => s!"(if {condition.text} {body.text})"
  | ifElse _ condition body other => s!"(if {condition.text} {body.text} {other.text})"
  | whileLoop _ condition body => s!"(while {condition.text} {body.text})"
  | function _ name params body =>
    let list := " ".intercalate params
    s!"(fun {name} ({list}){textAll body})"
  | returnValue _ none => "(return)"
  | returnValue _ (some value) => s!"(return {value.text})"
  | breakLoop _ => "(break)"
  | continueLoop _ => "(continue)"

/-- Each statement behind a space. -/
def textAll : List (Stmt α) → String
  | [] => ""
  | stmt :: rest => s!" {stmt.text}{textAll rest}"

end

def programText (program : List (Stmt α)) : String :=
  String.join (program.map fun stmt => stmt.text ++ "\n")

end Stmt
end Lox
