import Lox.Proofs.ScopeNames

/-! Where variables are found. A run looks variables up at places of its program; each time it finds
one, that is so many scopes outwards from the scope it is in. -/

namespace Lox

namespace Heap

/-- How many scopes outwards the nearest binding of a name is. -/
def distance (heap : Heap) (name : String) (id : ScopeId) : Option Nat :=
  match heap[id]? with
  | none => none
  | some scope =>
    if (scope.bindings.lookup name).isSome then some 0
    else
      match scope.parent with
      | none => none
      | some parent => if parent < id then (distance heap name parent).map (· + 1) else none
termination_by id

/-- The scope that is so many links outwards. -/
def outwards (heap : Heap) : Nat → ScopeId → Option ScopeId
  | 0, id => some id
  | links + 1, id => (heap[id]?.bind Scope.parent).bind (heap.outwards links)

/-- The search for a name goes so far. -/
theorem distance_of_find {heap : Heap} {name : String} {id owner : ScopeId}
    {value : Option Value} (found : heap.find name id = .ok (owner, value)) :
    ∃ links, heap.distance name id = some links ∧ heap.outwards links id = some owner := by
  fun_induction Heap.find heap name id with
  | case1 id missing => cases found
  | case2 id scope made value bound =>
    cases found
    refine ⟨0, ?_, rfl⟩
    rw [distance, made]
    simp [bound]
  | case3 id scope made unbound last => cases found
  | case4 id scope made unbound parent outer older ih =>
    obtain ⟨links, near, same⟩ := ih found
    refine ⟨links + 1, ?_, ?_⟩
    · rw [distance, made]
      simp [unbound, outer, older, near]
    · simp only [outwards, made, Option.bind_some, outer, same]
  | case5 id scope made unbound parent outer younger => cases found

/-- Where there is a distance, the search finds something. -/
theorem find_of_distance {heap : Heap} {name : String} {id : ScopeId} {links : Nat}
    (near : heap.distance name id = some links) : ∃ binding, heap.find name id = .ok binding := by
  fun_induction Heap.find heap name id generalizing links with
  | case1 id missing =>
    rw [distance, missing] at near
    cases near
  | case2 id scope made value bound => exact ⟨_, rfl⟩
  | case3 id scope made unbound last =>
    rw [distance, made] at near
    simp [unbound, last] at near
  | case4 id scope made unbound parent outer older ih =>
    rw [distance, made] at near
    simp only [unbound, outer, older, if_true, Option.isSome_none, Bool.false_eq_true, if_false] at near
    obtain ⟨links, near, -⟩ := Option.map_eq_some_iff.mp near
    exact ih near
  | case5 id scope made unbound parent outer younger =>
    rw [distance, made] at near
    simp [unbound, outer, younger] at near

end Heap

/-- A variable that was found: the place it is named at, and how many links outwards. -/
structure Finding where
  place : Place
  links : Nat
  deriving DecidableEq

/-- What is found in the course of a run, by the machine that it starts on. -/
abbrev Findings := Machine → List Finding

namespace Findings

def nothing : Findings := fun _ => []

def here (place : Place) (name : String) (scope : ScopeId) : Findings := fun machine =>
  (machine.heap.distance name scope).toList.map fun links => ⟨place, links⟩

/-- What is found in the course of a run, and then behind it. -/
def andThen {α : Type} (found : Findings) (run : Run α) (next : α → Findings) : Findings :=
  fun machine => found machine ++
    match run machine with
    | .ok value after => next value after
    | .error _ _ => []

section Runs

variable (settings : Settings)

open Interpreter

mutual

def ofExpr (scope : ScopeId) : Nat → Expr Place → Findings
  | 0, _ => nothing
  | fuel + 1, expr =>
    match expr with
    | .literal _ _ => nothing
    | .grouping _ inner => ofExpr scope fuel inner
    | .unary _ _ operand => ofExpr scope fuel operand
    | .binary _ _ left right =>
      (ofExpr scope fuel left).andThen (evaluate settings scope fuel left) fun _ =>
        ofExpr scope fuel right
    | .logical _ .or left right =>
      (ofExpr scope fuel left).andThen (evaluate settings scope fuel left) fun first =>
        if first.isTruthy then nothing else ofExpr scope fuel right
    | .logical _ .and left right =>
      (ofExpr scope fuel left).andThen (evaluate settings scope fuel left) fun first =>
        if first.isTruthy then ofExpr scope fuel right else nothing
    | .name place name => here place name scope
    | .assign place name value =>
      (ofExpr scope fuel value).andThen (evaluate settings scope fuel value) fun _ =>
        here place name scope
    | .call place callee arguments =>
      (ofExpr scope fuel callee).andThen (evaluate settings scope fuel callee) fun callee =>
        (ofExprs scope fuel arguments).andThen (evaluateAll settings scope fuel arguments)
          fun values => ofCall fuel callee values place.line
termination_by structural fuel => fuel

def ofExprs (scope : ScopeId) : Nat → List (Expr Place) → Findings
  | 0, _ => nothing
  | _ + 1, [] => nothing
  | fuel + 1, expr :: rest =>
    (ofExpr scope fuel expr).andThen (evaluate settings scope fuel expr) fun _ =>
      ofExprs scope fuel rest
termination_by structural fuel => fuel

/-- A call finds what its body does, in a new scope that holds the arguments. -/
def ofCall : Nat → Value → List Value → Nat → Findings
  | 0, _, _, _ => nothing
  | fuel + 1, callee, arguments, line =>
    match callee with
    | .function closure =>
      if closure.arity ≠ arguments.length then nothing
      else
        nothing.andThen (Run.mayEnter settings line) fun _ =>
          let bindings := (closure.params.zip arguments).foldl
            (fun bindings (name, value) => Bindings.set name (some value) bindings) []
          nothing.andThen (Run.enter bindings closure.scope) fun scope machine =>
            ofStmts scope fuel closure.body { machine with depth := machine.depth + 1 }
    | _ => nothing
termination_by structural fuel => fuel

def ofStmt (scope : ScopeId) : Nat → Stmt Place → Findings
  | 0, _ => nothing
  | fuel + 1, stmt =>
    match stmt with
    | .expression _ expr | .print _ expr | .declare _ _ (some expr) | .returnValue _ (some expr) =>
      ofExpr scope fuel expr
    | .block _ body =>
      nothing.andThen (Run.enter [] scope) fun inner => ofStmts inner fuel body
    | .ifThen _ condition body =>
      (ofExpr scope fuel condition).andThen (evaluate settings scope fuel condition) fun value =>
        if value.isTruthy then ofStmt scope fuel body else nothing
    | .ifElse _ condition body other =>
      (ofExpr scope fuel condition).andThen (evaluate settings scope fuel condition) fun value =>
        if value.isTruthy then ofStmt scope fuel body else ofStmt scope fuel other
    | .whileLoop _ condition body => ofLoop scope fuel condition body
    | .declare _ _ none | .function _ _ _ _ | .returnValue _ none | .breakLoop _
    | .continueLoop _ => nothing
termination_by structural fuel => fuel

def ofStmts (scope : ScopeId) : Nat → List (Stmt Place) → Findings
  | 0, _ => nothing
  | _ + 1, [] => nothing
  | fuel + 1, stmt :: rest =>
    (ofStmt scope fuel stmt).andThen (execute settings scope fuel stmt) fun signal =>
      match signal with
      | .normal => ofStmts scope fuel rest
      | _ => nothing
termination_by structural fuel => fuel

def ofLoop (scope : ScopeId) : Nat → Expr Place → Stmt Place → Findings
  | 0, _, _ => nothing
  | fuel + 1, condition, body =>
    (ofExpr scope fuel condition).andThen (evaluate settings scope fuel condition) fun value =>
      if value.isTruthy then
        (ofStmt scope fuel body).andThen (execute settings scope fuel body) fun signal =>
          match signal with
          | .normal | .jumping .continuing _ => ofLoop scope fuel condition body
          | _ => nothing
      else nothing
termination_by structural fuel => fuel

end

def ofProgram (scope : ScopeId) (fuel : Nat) : List (Stmt Place) → Findings
  | [] => nothing
  | stmt :: rest =>
    (ofStmt settings scope fuel stmt).andThen (execute settings scope fuel stmt) fun signal =>
      match signal with
      | .normal => ofProgram scope fuel rest
      | _ => nothing

end Runs
end Findings

/-- What a program finds when it is run by itself. -/
def Program.findings (settings : Settings) (fuel : Nat) (program : Program) : List Finding :=
  let session := Session.start settings
  Findings.ofProgram settings session.globals fuel program session.machine

/-- A variable may be found at different distances from one place. Here a function is called again
once the block around it has got a variable of the name that it uses. -/
theorem Program.findings_move :
    let source := "var a = \"global\"; \x7b fun show() \x7b print a; \x7d show(); " ++
      "var a = \"block\"; show(); \x7d"
    ∃ program, Program.ofSource source = .ok program ∧
      ¬ ∃ links : Place → Nat, ∀ settings fuel, ∀ finding ∈ program.findings settings fuel,
        finding.links = links finding.place := by
  intro source
  let settings : Settings := ⟨none, Session.steadyClock⟩
  have found : ((Program.ofSource source).toOption.map (Program.findings settings 40)) =
      some [⟨⟨1, 44, 48⟩, 0⟩, ⟨⟨1, 39, 40⟩, 2⟩, ⟨⟨1, 69, 73⟩, 0⟩, ⟨⟨1, 39, 40⟩, 1⟩] := by
    decide +kernel
  cases given : Program.ofSource source with
  | error diagnostics =>
    rw [given] at found
    cases found
  | ok program =>
    rw [given] at found
    have same := Option.some.inj found
    refine ⟨program, rfl, fun ⟨links, fixed⟩ => ?_⟩
    have all := fixed settings 40
    rw [same] at all
    have before := all ⟨⟨1, 39, 40⟩, 2⟩ (by simp)
    have after := all ⟨⟨1, 39, 40⟩, 1⟩ (by simp)
    cases before.trans after.symm

end Lox
