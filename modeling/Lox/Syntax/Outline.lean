import Lox.Number.Bits
import Lox.Syntax

/-!
The nodes of a tree in the order they are written, each with its depth.
-/

namespace Lox

structure Node (α : Type) where
  depth : Nat
  label : String
  place : α

def Literal.label : Literal → String
  | .nil => "Literal nil"
  | .bool true => "Literal true"
  | .bool false => "Literal false"
  | .number value => s!"Literal number {Number.bits value}"
  | .string contents => s!"Literal string {contents}"

namespace Expr

variable {α : Type}

mutual

/-- The nodes of an expression, in front of those that come after it. -/
def outline (depth : Nat) (after : List (Node α)) : Expr α → List (Node α)
  | literal place value => ⟨depth, value.label, place⟩ :: after
  | grouping place inner => ⟨depth, "Grouping", place⟩ :: inner.outline (depth + 1) after
  | unary place operator operand =>
    ⟨depth, s!"Unary {operator.symbol}", place⟩ :: operand.outline (depth + 1) after
  | binary place operator left right =>
    ⟨depth, s!"Binary {operator.symbol}", place⟩ ::
      left.outline (depth + 1) (right.outline (depth + 1) after)
  | logical place operator left right =>
    ⟨depth, s!"Logical {operator.symbol}", place⟩ ::
      left.outline (depth + 1) (right.outline (depth + 1) after)
  | name place label => ⟨depth, s!"Variable {label}", place⟩ :: after
  | assign place label value =>
    ⟨depth, s!"Assign {label}", place⟩ :: value.outline (depth + 1) after
  | call place callee arguments =>
    ⟨depth, s!"Call {arguments.length}", place⟩ ::
      callee.outline (depth + 1) (outlineAll (depth + 1) after arguments)

def outlineAll (depth : Nat) (after : List (Node α)) : List (Expr α) → List (Node α)
  | [] => after
  | expr :: rest => expr.outline depth (outlineAll depth after rest)

end
end Expr

namespace Stmt

variable {α : Type}

/-- The part of a statement that may be missing. -/
private def outlineOption (depth : Nat) (after : List (Node α)) : Option (Expr α) → List (Node α)
  | none => after
  | some expr => expr.outline depth after

mutual

/-- The nodes of a statement, in front of those that come after it. -/
def outline (depth : Nat) (after : List (Node α)) : Stmt α → List (Node α)
  | expression place expr => ⟨depth, "Expression", place⟩ :: expr.outline (depth + 1) after
  | print place expr => ⟨depth, "Print", place⟩ :: expr.outline (depth + 1) after
  | declare place name initial =>
    ⟨depth, s!"Var {name}", place⟩ :: outlineOption (depth + 1) after initial
  | block place body =>
    ⟨depth, s!"Block {body.length}", place⟩ :: outlineAll (depth + 1) after body
  | ifThen place condition body =>
    ⟨depth, "If", place⟩ :: condition.outline (depth + 1) (body.outline (depth + 1) after)
  | ifElse place condition body other =>
    ⟨depth, "If", place⟩ ::
      condition.outline (depth + 1)
        (body.outline (depth + 1) (other.outline (depth + 1) after))
  | whileLoop place condition body =>
    ⟨depth, "While", place⟩ :: condition.outline (depth + 1) (body.outline (depth + 1) after)
  | function place name params body =>
    let list := ",".intercalate params
    ⟨depth, s!"Function {name}({list})", place⟩ :: outlineAll (depth + 1) after body
  | returnValue place value => ⟨depth, "Return", place⟩ :: outlineOption (depth + 1) after value
  | breakLoop place => ⟨depth, "Break", place⟩ :: after
  | continueLoop place => ⟨depth, "Continue", place⟩ :: after

def outlineAll (depth : Nat) (after : List (Node α)) : List (Stmt α) → List (Node α)
  | [] => after
  | stmt :: rest => stmt.outline depth (outlineAll depth after rest)

end

/-- The statements of a program stand at depth zero. -/
def programOutline (program : List (Stmt α)) : List (Node α) := outlineAll 0 [] program

end Stmt
end Lox
