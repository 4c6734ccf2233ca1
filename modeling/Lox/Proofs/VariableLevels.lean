import Lox.Proofs.DeclarationSites

/-! How far outwards the variables of a program are, as far as the program alone says. A function is
called when the scopes around it may have got further names; a name that a block around the function
only declares further on is left open. -/

namespace Lox

/-- What is known of a scope while a part of the program runs in it or within: the names that have
been declared there, those that are still to be declared, and whether by now they may have been. -/
structure Layer where
  bound : List String
  ahead : List String
  deferred : Bool

namespace Layer

def defer (layer : Layer) : Layer := { layer with deferred := true }

/-- How many scopes outwards a name is found, if it is bound at all. Behind all layers comes the
scope of the global variables. -/
def links (name : String) : List Layer → Option Nat
  | [] => some 0
  | layer :: outer =>
    if name ∈ layer.bound then some 0
    else if layer.deferred ∧ name ∈ layer.ahead then none
    else (links name outer).map (· + 1)

/-- The innermost scope has got another name. -/
def declare (name : String) : List Layer → List Layer
  | [] => []
  | layer :: outer => { layer with bound := name :: layer.bound } :: outer

theorem defer_defer (layers : List Layer) : (layers.map defer).map defer = layers.map defer := by
  simp [defer]

end Layer

/-- A place where a program names a variable, and how many scopes outwards that is. -/
structure Occurrence where
  place : Place
  links : Option Nat
  deriving DecidableEq

namespace Expr

mutual

/-- The variables that an expression names. -/
def occurrences (layers : List Layer) : Expr Place → List Occurrence
  | literal _ _ => []
  | grouping _ inner | unary _ _ inner => inner.occurrences layers
  | binary _ _ left right | logical _ _ left right =>
    left.occurrences layers ++ right.occurrences layers
  | name place label => [⟨place, Layer.links label layers⟩]
  | assign place label value => ⟨place, Layer.links label layers⟩ :: value.occurrences layers
  | call _ callee arguments => callee.occurrences layers ++ occurrencesAll layers arguments

def occurrencesAll (layers : List Layer) : List (Expr Place) → List Occurrence
  | [] => []
  | expr :: rest => expr.occurrences layers ++ occurrencesAll layers rest

end

end Expr

namespace Stmt

variable {α : Type}

/-- The name that a statement declares in the scope it stands in. -/
def declared : Stmt α → Option String
  | declare _ name _ | function _ name _ _ => some name
  | _ => none

def declaredAll (stmts : List (Stmt α)) : List String := stmts.filterMap declared

theorem declaredAll_cons (stmt : Stmt α) (rest : List (Stmt α)) :
    declaredAll (stmt :: rest) = stmt.declared.toList ++ declaredAll rest := by
  cases own : stmt.declared <;> simp [declaredAll, own]

mutual

/-- The variables that a statement names, those in the functions that it declares among them. -/
def occurrences (layers : List Layer) : Stmt Place → List Occurrence
  | expression _ expr | print _ expr | declare _ _ (some expr) | returnValue _ (some expr) =>
    expr.occurrences layers
  | block _ body => occurrencesIn [] layers body
  | ifThen _ condition body | whileLoop _ condition body =>
    condition.occurrences layers ++ body.occurrences layers
  | ifElse _ condition body other =>
    condition.occurrences layers ++ (body.occurrences layers ++ other.occurrences layers)
  | function _ name params body =>
    occurrencesIn params ((Layer.declare name layers).map Layer.defer) body
  | declare _ _ none | returnValue _ none | breakLoop _ | continueLoop _ => []

/-- Those in statements one after another in a scope of their own, where some names are bound. -/
def occurrencesIn (bound : List String) (outer : List Layer) : List (Stmt Place) → List Occurrence
  | [] => []
  | stmt :: rest =>
    stmt.occurrences (⟨bound, declaredAll (stmt :: rest), false⟩ :: outer) ++
      occurrencesIn (stmt.declared.toList ++ bound) outer rest

end

end Stmt

/-- The variables that a program names. -/
def Program.occurrences (program : Program) : List Occurrence :=
  program.flatMap (Stmt.occurrences [])

end Lox
