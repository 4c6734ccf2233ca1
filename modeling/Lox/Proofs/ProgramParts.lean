import Lox.Session

/-! The nodes of a program, function by function: what lies in the body of a function and what lies
in the functions declared there are told apart. -/

namespace Lox

/-- A node of a program. -/
inductive Part where
  | expr (expr : Expr Place)
  | stmt (stmt : Stmt Place)

def Part.line : Part → Nat
  | expr node => node.place.line
  | stmt node => node.place.line

def Part.callLine? : Part → Option Nat
  | expr (.call place _ _) => some place.line
  | _ => none

namespace Expr

mutual

/-- An expression and the expressions in it. -/
def parts : Expr Place → List Part
  | expr@(literal _ _) | expr@(name _ _) => [.expr expr]
  | expr@(grouping _ inner) | expr@(unary _ _ inner) | expr@(assign _ _ inner) =>
    .expr expr :: inner.parts
  | expr@(binary _ _ left right) | expr@(logical _ _ left right) =>
    .expr expr :: (left.parts ++ right.parts)
  | expr@(call _ callee arguments) => .expr expr :: (callee.parts ++ partsAll arguments)

def partsAll : List (Expr Place) → List Part
  | [] => []
  | expr :: rest => expr.parts ++ partsAll rest

end

theorem mem_parts (expr : Expr Place) : .expr expr ∈ expr.parts := by
  cases expr <;> exact List.mem_cons_self

mutual

/-- There are no statements in an expression. -/
theorem stmt_not_mem (stmt : Stmt Place) : ∀ expr : Expr Place, .stmt stmt ∉ expr.parts
  | literal _ _ | name _ _ => by simp [parts]
  | grouping _ inner | unary _ _ inner | assign _ _ inner => by
    simpa [parts] using stmt_not_mem stmt inner
  | binary _ _ left right | logical _ _ left right => by
    simpa [parts] using ⟨stmt_not_mem stmt left, stmt_not_mem stmt right⟩
  | call _ callee arguments => by
    simpa [parts] using ⟨stmt_not_mem stmt callee, stmt_not_mem_all stmt arguments⟩

theorem stmt_not_mem_all (stmt : Stmt Place) : ∀ exprs, .stmt stmt ∉ partsAll exprs
  | [] => List.not_mem_nil
  | expr :: rest => by
    simpa [partsAll] using ⟨stmt_not_mem stmt expr, stmt_not_mem_all stmt rest⟩

end

end Expr

/-- A statement that leaves what it stands in. -/
inductive Exit where
  | returning (line : Nat)
  | jumping (jump : Jump) (line : Nat)
  deriving DecidableEq

namespace Exit

def line : Exit → Nat
  | returning line | jumping _ line => line

/-- The error that it is to leave what there is nothing around of. -/
def error : Exit → RuntimeError
  | returning line => .ofFault line .outsideFunction
  | jumping jump line => .ofFault line (.outsideLoop jump)

def isReturn : Exit → Bool
  | returning _ => true
  | jumping _ _ => false

/-- Whether there is something to leave: a function to return from, a loop to jump in. -/
def allowed (inLoop inFunction : Bool) : Exit → Bool
  | returning _ => inFunction
  | jumping _ _ => inLoop

end Exit

namespace Stmt

mutual

/-- A statement and the nodes in it. A function that it declares is a node, what is in the body of
that function is not. -/
def parts : Stmt Place → List Part
  | stmt@(expression _ expr) | stmt@(print _ expr) | stmt@(declare _ _ (some expr))
  | stmt@(returnValue _ (some expr)) => .stmt stmt :: expr.parts
  | stmt@(block _ body) => .stmt stmt :: partsAll body
  | stmt@(ifThen _ condition body) | stmt@(whileLoop _ condition body) =>
    .stmt stmt :: (condition.parts ++ body.parts)
  | stmt@(ifElse _ condition body other) =>
    .stmt stmt :: (condition.parts ++ (body.parts ++ other.parts))
  | stmt@(declare _ _ none) | stmt@(returnValue _ none) | stmt@(function _ _ _ _)
  | stmt@(breakLoop _) | stmt@(continueLoop _) => [.stmt stmt]

def partsAll : List (Stmt Place) → List Part
  | [] => []
  | stmt :: rest => stmt.parts ++ partsAll rest

end

theorem mem_parts (stmt : Stmt Place) : .stmt stmt ∈ stmt.parts := by
  cases stmt with
  | declare place name initial => cases initial <;> exact List.mem_cons_self
  | returnValue place value => cases value <;> exact List.mem_cons_self
  | _ => exact List.mem_cons_self

mutual

/-- The statements by which control can leave a statement. A loop is left by none of the jumps in
its body. -/
def exits : Stmt Place → List Exit
  | block _ body => exitsAll body
  | ifThen _ _ body => body.exits
  | ifElse _ _ body other => body.exits ++ other.exits
  | whileLoop _ _ body => body.exits.filter Exit.isReturn
  | returnValue place _ => [.returning place.line]
  | breakLoop place => [.jumping .breaking place.line]
  | continueLoop place => [.jumping .continuing place.line]
  | expression _ _ | print _ _ | declare _ _ _ | function _ _ _ _ => []

def exitsAll : List (Stmt Place) → List Exit
  | [] => []
  | stmt :: rest => stmt.exits ++ exitsAll rest

end

mutual

/-- Whether every jump is in a loop of the same function, and every `return` in a function. -/
def wellPlaced (inLoop inFunction : Bool) : Stmt Place → Bool
  | block _ body => allWellPlaced inLoop inFunction body
  | ifThen _ _ body => body.wellPlaced inLoop inFunction
  | ifElse _ _ body other => body.wellPlaced inLoop inFunction && other.wellPlaced inLoop inFunction
  | whileLoop _ _ body => body.wellPlaced true inFunction
  | function _ _ _ body => allWellPlaced false true body
  | returnValue _ _ => inFunction
  | breakLoop _ | continueLoop _ => inLoop
  | expression _ _ | print _ _ | declare _ _ _ => true

def allWellPlaced (inLoop inFunction : Bool) : List (Stmt Place) → Bool
  | [] => true
  | stmt :: rest => stmt.wellPlaced inLoop inFunction && allWellPlaced inLoop inFunction rest

end

mutual

theorem exits_allowed {inLoop inFunction : Bool} : ∀ stmt : Stmt Place,
    stmt.wellPlaced inLoop inFunction → ∀ exit ∈ stmt.exits, exit.allowed inLoop inFunction
  | block _ body, placed, exit, member => exitsAll_allowed placed exit member
  | ifThen _ _ body, placed, exit, member => exits_allowed body placed exit member
  | ifElse _ _ body other, placed, exit, member => by
    obtain ⟨first, second⟩ := Bool.and_eq_true_iff.mp placed
    rcases List.mem_append.mp member with inside | inside
    · exact exits_allowed body first exit inside
    · exact exits_allowed other second exit inside
  | whileLoop _ _ body, placed, exit, member => by
    obtain ⟨inside, returns⟩ := List.mem_filter.mp member
    have allowed := exits_allowed body placed exit inside
    cases exit with
    | returning line => exact allowed
    | jumping jump line => cases returns
  | returnValue _ _, placed, exit, member => by
    obtain rfl := List.mem_singleton.mp member
    exact placed
  | breakLoop _, placed, exit, member => by
    obtain rfl := List.mem_singleton.mp member
    exact placed
  | continueLoop _, placed, exit, member => by
    obtain rfl := List.mem_singleton.mp member
    exact placed

theorem exitsAll_allowed {inLoop inFunction : Bool} : ∀ {stmts : List (Stmt Place)},
    allWellPlaced inLoop inFunction stmts → ∀ exit ∈ exitsAll stmts, exit.allowed inLoop inFunction
  | stmt :: rest, placed, exit, member => by
    obtain ⟨first, later⟩ := Bool.and_eq_true_iff.mp placed
    rcases List.mem_append.mp member with inside | inside
    · exact exits_allowed stmt first exit inside
    · exact exitsAll_allowed later exit inside

end

mutual

/-- What leaves a statement is a node of it. -/
theorem exits_parts : ∀ stmt : Stmt Place, ∀ exit ∈ stmt.exits,
    ∃ part ∈ stmt.parts, part.line = exit.line
  | block _ body, exit, member => by
    obtain ⟨part, inside, same⟩ := exitsAll_parts exit member
    exact ⟨part, List.mem_cons_of_mem _ inside, same⟩
  | ifThen _ condition body, exit, member => by
    obtain ⟨part, inside, same⟩ := exits_parts body exit member
    exact ⟨part, by simp [parts, inside], same⟩
  | ifElse _ _ body other, exit, member => by
    rcases List.mem_append.mp member with first | second
    · obtain ⟨part, inside, same⟩ := exits_parts body exit first
      exact ⟨part, by simp [parts, inside], same⟩
    · obtain ⟨part, inside, same⟩ := exits_parts other exit second
      exact ⟨part, by simp [parts, inside], same⟩
  | whileLoop _ _ body, exit, member => by
    obtain ⟨part, inside, same⟩ := exits_parts body exit (List.mem_filter.mp member).1
    exact ⟨part, by simp [parts, inside], same⟩
  | returnValue place value, exit, member => by
    obtain rfl := List.mem_singleton.mp member
    exact ⟨_, mem_parts _, rfl⟩
  | breakLoop _, exit, member => by
    obtain rfl := List.mem_singleton.mp member
    exact ⟨_, mem_parts _, rfl⟩
  | continueLoop _, exit, member => by
    obtain rfl := List.mem_singleton.mp member
    exact ⟨_, mem_parts _, rfl⟩

theorem exitsAll_parts : ∀ {stmts : List (Stmt Place)}, ∀ exit ∈ exitsAll stmts,
    ∃ part ∈ partsAll stmts, part.line = exit.line
  | stmt :: rest, exit, member => by
    rcases List.mem_append.mp member with first | later
    · obtain ⟨part, inside, same⟩ := exits_parts stmt exit first
      exact ⟨part, List.mem_append_left _ inside, same⟩
    · obtain ⟨part, inside, same⟩ := exitsAll_parts exit later
      exact ⟨part, List.mem_append_right _ inside, same⟩

end

section Functions

variable {place : Place} {name : String} {params : List String} {body : List (Stmt Place)}

mutual

theorem function_placed {inLoop inFunction : Bool} : ∀ stmt : Stmt Place,
    stmt.wellPlaced inLoop inFunction → .stmt (function place name params body) ∈ stmt.parts →
      allWellPlaced false true body
  | expression _ expr, _, member | print _ expr, _, member | declare _ _ (some expr), _, member
  | returnValue _ (some expr), _, member => by
    simp [parts, expr.stmt_not_mem] at member
  | block _ inner, placed, member => by
    simp only [parts, List.mem_cons, Part.stmt.injEq, reduceCtorEq, false_or] at member
    exact functions_placed placed member
  | ifThen _ condition inner, placed, member | whileLoop _ condition inner, placed, member => by
    simp only [parts, List.mem_cons, Part.stmt.injEq, reduceCtorEq, false_or, List.mem_append,
      condition.stmt_not_mem] at member
    exact function_placed inner placed member
  | ifElse _ condition inner other, placed, member => by
    simp only [parts, List.mem_cons, Part.stmt.injEq, reduceCtorEq, false_or, List.mem_append,
      condition.stmt_not_mem] at member
    obtain ⟨first, second⟩ := Bool.and_eq_true_iff.mp placed
    rcases member with inside | inside
    · exact function_placed inner first inside
    · exact function_placed other second inside
  | function _ _ _ _, placed, member => by
    obtain ⟨⟩ := Part.stmt.inj (List.mem_singleton.mp member)
    exact placed
  | declare _ _ none, _, member | returnValue _ none, _, member | breakLoop _, _, member
  | continueLoop _, _, member => by simp [parts] at member

theorem functions_placed {inLoop inFunction : Bool} : ∀ {stmts : List (Stmt Place)},
    allWellPlaced inLoop inFunction stmts →
      .stmt (function place name params body) ∈ partsAll stmts → allWellPlaced false true body
  | stmt :: rest, placed, member => by
    obtain ⟨first, later⟩ := Bool.and_eq_true_iff.mp placed
    rcases List.mem_append.mp member with inside | inside
    · exact function_placed stmt first inside
    · exact functions_placed later inside

end

end Functions

end Stmt

/-- The functions that a program declares, at the top level or in the body of another one. -/
inductive Program.Declares (program : Program) : String → List String → List (Stmt Place) → Prop where
  | here {place : Place} {name : String} {params : List String} {body : List (Stmt Place)}
      (member : .stmt (.function place name params body) ∈ Stmt.partsAll program) :
      Declares program name params body
  | inside {place : Place} {name outer : String} {params others : List String}
      {body around : List (Stmt Place)} (declared : Declares program outer others around)
      (member : .stmt (.function place name params body) ∈ Stmt.partsAll around) :
      Declares program name params body

/-- Whether every jump of a program is in a loop of the same function or of the top level, and every
`return` in a function. -/
def Program.wellPlaced (program : Program) : Bool := Stmt.allWellPlaced false false program

theorem Program.Declares.wellPlaced {program : Program} {name : String} {params : List String}
    {body : List (Stmt Place)} (declared : program.Declares name params body)
    (placed : program.wellPlaced) : Stmt.allWellPlaced false true body := by
  induction declared with
  | here member => exact Stmt.functions_placed placed member
  | inside _ member around => exact Stmt.functions_placed around member

end Lox
