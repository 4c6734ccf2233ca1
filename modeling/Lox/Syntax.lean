import Lox.Span
import Lox.Syntax.Operator

/-!
Programs as trees. Every node carries an annotation: the parser leaves the place
a node was read from, and `Unit` leaves a bare tree, by which programs are
compared when their layout does not matter. A `for` loop has no node of its own;
it stands for the block that its parts make up.
-/

namespace Lox

/-- Where a node stands: the span of its text, and the line that errors in it
are reported on. -/
structure Place where
  line : Nat
  span : Span
  deriving DecidableEq, Repr

inductive Literal where
  | nil
  | bool (value : Bool)
  | number (value : Float)
  | string (contents : String)
  deriving DecidableEq

inductive Expr (α : Type) where
  | literal (place : α) (value : Literal)
  | grouping (place : α) (inner : Expr α)
  | unary (place : α) (operator : UnaryOperator) (operand : Expr α)
  | binary (place : α) (operator : BinaryOperator) (left right : Expr α)
  | logical (place : α) (operator : LogicalOperator) (left right : Expr α)
  | name (place : α) (name : String)
  | assign (place : α) (name : String) (value : Expr α)
  | call (place : α) (callee : Expr α) (arguments : List (Expr α))

/-- A conditional without an `else` part is a node of its own kind. -/
inductive Stmt (α : Type) where
  | expression (place : α) (expr : Expr α)
  | print (place : α) (expr : Expr α)
  | declare (place : α) (name : String) (initial : Option (Expr α))
  | block (place : α) (body : List (Stmt α))
  | ifThen (place : α) (condition : Expr α) (body : Stmt α)
  | ifElse (place : α) (condition : Expr α) (body other : Stmt α)
  | whileLoop (place : α) (condition : Expr α) (body : Stmt α)
  | function (place : α) (name : String) (params : List String) (body : List (Stmt α))
  | returnValue (place : α) (value : Option (Expr α))
  | breakLoop (place : α)
  | continueLoop (place : α)

abbrev Program := List (Stmt Place)

namespace Expr

variable {α β : Type}

def place : Expr α → α
  | literal place _ | grouping place _ | unary place _ _ | binary place _ _ _
  | logical place _ _ _ | name place _ | assign place _ _ | call place _ _ => place

mutual

def map (f : α → β) : Expr α → Expr β
  | literal place value => literal (f place) value
  | grouping place inner => grouping (f place) (inner.map f)
  | unary place operator operand => unary (f place) operator (operand.map f)
  | binary place operator left right => binary (f place) operator (left.map f) (right.map f)
  | logical place operator left right => logical (f place) operator (left.map f) (right.map f)
  | name place label => name (f place) label
  | assign place label value => assign (f place) label (value.map f)
  | call place callee arguments => call (f place) (callee.map f) (mapAll f arguments)

def mapAll (f : α → β) : List (Expr α) → List (Expr β)
  | [] => []
  | expr :: rest => expr.map f :: mapAll f rest

end

/-- The tree without its places. -/
def bare (expr : Expr α) : Expr Unit := expr.map fun _ => ()

end Expr

namespace Stmt

variable {α β : Type}

def place : Stmt α → α
  | expression place _ | print place _ | declare place _ _ | block place _ | ifThen place _ _
  | ifElse place _ _ _ | whileLoop place _ _ | function place _ _ _ | returnValue place _
  | breakLoop place | continueLoop place => place

mutual

def map (f : α → β) : Stmt α → Stmt β
  | expression place expr => expression (f place) (expr.map f)
  | print place expr => print (f place) (expr.map f)
  | declare place name initial => declare (f place) name (initial.map (Expr.map f))
  | block place body => block (f place) (mapAll f body)
  | ifThen place condition body => ifThen (f place) (condition.map f) (body.map f)
  | ifElse place condition body other =>
    ifElse (f place) (condition.map f) (body.map f) (other.map f)
  | whileLoop place condition body => whileLoop (f place) (condition.map f) (body.map f)
  | function place name params body => function (f place) name params (mapAll f body)
  | returnValue place value => returnValue (f place) (value.map (Expr.map f))
  | breakLoop place => breakLoop (f place)
  | continueLoop place => continueLoop (f place)

def mapAll (f : α → β) : List (Stmt α) → List (Stmt β)
  | [] => []
  | stmt :: rest => stmt.map f :: mapAll f rest

end

/-- The tree without its places. -/
def bare (stmt : Stmt α) : Stmt Unit := stmt.map fun _ => ()

end Stmt
end Lox
