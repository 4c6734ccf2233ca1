import Lox.Value

/-!
Variables live in scopes, and scopes in a heap, where they stay as long as a
program runs. A scope is made inside another one, its parent, which is older;
so looking outwards comes to an end.
-/

namespace Lox

/-- The bindings of a scope. A variable that is declared without a value is
bound to none. -/
abbrev Bindings := List (String × Option Value)

/-- Binds a name, in place of what it was bound to before. -/
def Bindings.set (name : String) (value : Option Value) : Bindings → Bindings
  | [] => [(name, value)]
  | (key, old) :: rest =>
    if key == name then (name, value) :: rest else (key, old) :: Bindings.set name value rest

structure Scope where
  bindings : Bindings
  parent : Option ScopeId

/-- A scope that does not exist is told apart from a name that is not bound. -/
inductive ScopeError where
  | undefined | uninitialized | dangling
  deriving DecidableEq, Repr

abbrev Heap := Array Scope

namespace Heap

/-- A new scope, with what it is made of. -/
def make (heap : Heap) (scope : Scope) : ScopeId × Heap := (heap.size, heap.push scope)

/-- The nearest scope that binds a name, from one outwards, and the binding. -/
def find (heap : Heap) (name : String) (id : ScopeId) :
    Except ScopeError (ScopeId × Option Value) :=
  match heap[id]? with
  | none => .error .dangling
  | some scope =>
    match scope.bindings.lookup name with
    | some value => .ok (id, value)
    | none =>
      match scope.parent with
      | none => .error .undefined
      | some parent => if parent < id then find heap name parent else .error .dangling
termination_by id

def get (heap : Heap) (name : String) (id : ScopeId) : Except ScopeError Value :=
  match heap.find name id with
  | .ok (_, some value) => .ok value
  | .ok (_, none) => .error .uninitialized
  | .error error => .error error

/-- Binds a name in one scope. -/
def bind (heap : Heap) (name : String) (value : Option Value) (id : ScopeId) : Heap :=
  heap.modify id fun scope => { scope with bindings := scope.bindings.set name value }

def define (heap : Heap) (name : String) (value : Value) (id : ScopeId) : Heap :=
  heap.bind name (some value) id

def declare (heap : Heap) (name : String) (id : ScopeId) : Heap := heap.bind name none id

/-- Gives a value to the nearest binding of a name. -/
def assign (heap : Heap) (name : String) (value : Value) (id : ScopeId) :
    Except ScopeError Heap :=
  match heap.find name id with
  | .ok (owner, _) => .ok (heap.define name value owner)
  | .error error => .error error

end Heap
end Lox
