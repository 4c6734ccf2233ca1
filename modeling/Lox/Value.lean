import Lox.Number.Text
import Lox.RuntimeError
import Lox.Syntax

/-!
What expressions evaluate to, and what the operators do with it. Nothing is
converted from one kind to another.
-/

namespace Lox

/-- Scopes are known by the order in which they were made. -/
abbrev ScopeId := Nat

/-- A function as one execution of its declaration made it. -/
structure Closure where
  id : Nat
  name : String
  params : List String
  body : List (Stmt Place)
  scope : ScopeId

namespace Closure

def arity (closure : Closure) : Nat := closure.params.length

end Closure

/-- The functions that no program declares. -/
inductive Native where
  | clock
  deriving DecidableEq, Repr

namespace Native

def all : List Native := [.clock]

def name : Native → String
  | .clock => "clock"

def arity : Native → Nat
  | .clock => 0

end Native

inductive Value where
  | nil
  | bool (value : Bool)
  | number (value : Float)
  | string (contents : String)
  | function (closure : Closure)
  | native (native : Native)

instance : Inhabited Value := ⟨.nil⟩

namespace Value

def ofLiteral : Literal → Value
  | .nil => .nil
  | .bool value => .bool value
  | .number value => .number value
  | .string contents => .string contents

def typeName : Value → String
  | .nil => "nil"
  | .bool _ => "bool"
  | .number _ => "number"
  | .string _ => "string"
  | .function _ | .native _ => "function"

/-- Everything but `nil` and `false` counts as true. -/
def isTruthy : Value → Bool
  | .nil | .bool false => false
  | _ => true

/-- The `==` of programs. Values of different kinds differ, numbers compare as
numbers, and functions by the execution that made them. -/
def equals : Value → Value → Bool
  | .nil, .nil => true
  | .bool first, .bool second => first == second
  | .number first, .number second => first == second
  | .string first, .string second => first == second
  | .function first, .function second => first.id == second.id
  | .native first, .native second => first == second
  | _, _ => false

/-- What `print` shows. -/
def text : Value → String
  | .nil => "nil"
  | .bool true => "true"
  | .bool false => "false"
  | .number value => Number.text value
  | .string contents => contents
  | .function closure => s!"<fn {closure.name}>"
  | .native _ => "<native fn>"

end Value

def UnaryOperator.apply : UnaryOperator → Value → Except RuntimeFault Value
  | .negate, .number value => .ok (.number (-value))
  | .negate, _ => .error (.typeError .number)
  | .not, operand => .ok (.bool (!operand.isTruthy))

namespace BinaryOperator

/-- The operators that numbers alone have. Zero of either sign divides
nothing. -/
def calculate (left right : Float) : BinaryOperator → Except RuntimeFault Value
  | .add => .ok (.number (left + right))
  | .subtract => .ok (.number (left - right))
  | .multiply => .ok (.number (left * right))
  | .divide => if right == 0 then .error .divisionByZero else .ok (.number (left / right))
  | .equal => .ok (.bool (left == right))
  | .notEqual => .ok (.bool (left != right))
  | .less => .ok (.bool (left < right))
  | .lessEqual => .ok (.bool (left ≤ right))
  | .greater => .ok (.bool (right < left))
  | .greaterEqual => .ok (.bool (right ≤ left))

def apply (operator : BinaryOperator) (left right : Value) : Except RuntimeFault Value :=
  match operator, left, right with
  | .equal, _, _ => .ok (.bool (left.equals right))
  | .notEqual, _, _ => .ok (.bool (!left.equals right))
  | .add, .string first, .string second => .ok (.string (first ++ second))
  | _, .number first, .number second => operator.calculate first second
  | .add, _, _ => .error (.typeError .numbersOrStrings)
  | _, _, _ => .error (.typeError .numbers)

end BinaryOperator
end Lox
