import Lox.Proofs.ScopeRegion

/-! The evaluator as a whole stays in a region of the heap. What it is given may only be closed over
scopes of the region, and so is what it gives. -/

namespace Lox.Region
open Interpreter

/-- Every part of the evaluator stays in the region with some budget. -/
structure Confines (region : Region) (settings : Settings) (fuel : Nat) : Prop where
  evaluate : ∀ {machine scope} expr, region.Keeps machine.heap →
    region.Inside machine.heap.size scope →
      region.Stays (evaluate settings scope fuel expr) machine region.Holds
  evaluateAll : ∀ {machine scope} exprs, region.Keeps machine.heap →
    region.Inside machine.heap.size scope →
      region.Stays (evaluateAll settings scope fuel exprs) machine fun size values =>
        ∀ value ∈ values, region.Holds size value
  call : ∀ {machine callee arguments} line, region.Keeps machine.heap →
    region.Holds machine.heap.size callee →
      (∀ value ∈ arguments, region.Holds machine.heap.size value) →
        region.Stays (call settings fuel callee arguments line) machine region.Holds
  execute : ∀ {machine scope} stmt, region.Keeps machine.heap →
    region.Inside machine.heap.size scope →
      region.Stays (execute settings scope fuel stmt) machine fun size signal =>
        signal.Within (region.Inside size)
  executeAll : ∀ {machine scope} stmts, region.Keeps machine.heap →
    region.Inside machine.heap.size scope →
      region.Stays (executeAll settings scope fuel stmts) machine fun size signal =>
        signal.Within (region.Inside size)
  repeatWhile : ∀ {machine scope} condition body, region.Keeps machine.heap →
    region.Inside machine.heap.size scope →
      region.Stays (repeatWhile settings scope fuel condition body) machine fun size signal =>
        signal.Within (region.Inside size)

namespace Confines

variable {region : Region} {settings : Settings} {fuel : Nat}

theorem zero : region.Confines settings 0 where
  evaluate _ keeps _ := .exhausted keeps
  evaluateAll _ keeps _ := .exhausted keeps
  call _ keeps _ _ := .exhausted keeps
  execute _ keeps _ := .exhausted keeps
  executeAll _ keeps _ := .exhausted keeps
  repeatWhile _ _ keeps _ := .exhausted keeps

variable (ih : region.Confines settings fuel) {machine : Machine} {scope : ScopeId}
  (keeps : region.Keeps machine.heap)
include ih keeps

theorem evaluate_succ (expr : Expr Place) (inside : region.Inside machine.heap.size scope) :
    region.Stays (Interpreter.evaluate settings scope (fuel + 1) expr) machine region.Holds := by
  cases expr with
  | literal place value => exact .pure keeps (by cases value <;> trivial)
  | grouping place inner => exact ih.evaluate inner keeps inside
  | unary place operator operand =>
    refine (ih.evaluate operand keeps inside).bind fun value after keeps grown within => ?_
    exact .lift keeps fun _ applied => Value.within_iff.mpr (UnaryOperator.apply_meets applied)
  | binary place operator left right =>
    refine (ih.evaluate left keeps inside).bind fun first middle keeps grown _ => ?_
    refine (ih.evaluate right keeps (inside.mono grown)).bind fun second after keeps _ _ => ?_
    exact .lift keeps fun _ applied => Value.within_iff.mpr (BinaryOperator.apply_meets applied)
  | logical place operator left right =>
    have further (first : Value) (after : Machine) (keeps : region.Keeps after.heap)
        (grown : machine.heap.size ≤ after.heap.size)
        (within : region.Holds after.heap.size first) (short : Bool) :
        region.Stays (if short then pure first else
          Interpreter.evaluate settings scope fuel right) after region.Holds := by
      cases short with
      | true => exact .pure keeps within
      | false => exact ih.evaluate right keeps (inside.mono grown)
    cases operator with
    | or =>
      refine (ih.evaluate left keeps inside).bind fun first after keeps grown within => ?_
      exact further first after keeps grown within first.isTruthy
    | and =>
      refine (ih.evaluate left keeps inside).bind fun first after keeps grown within => ?_
      have chosen := further first after keeps grown within (!first.isTruthy)
      cases truth : first.isTruthy <;> simpa [truth] using chosen
  | name place name => exact .get keeps inside
  | assign place name value =>
    refine (ih.evaluate value keeps inside).bind fun value middle keeps grown within => ?_
    refine (Stays.assign keeps (inside.mono grown) within).bind fun _ after keeps larger _ => ?_
    exact .pure keeps (within.mono fun _ => Inside.mono larger)
  | call place callee arguments =>
    refine (ih.evaluate callee keeps inside).bind fun callee middle keeps grown within => ?_
    have passed := ih.evaluateAll arguments keeps (inside.mono grown)
    refine passed.bind fun values after keeps larger held => ?_
    exact ih.call place.line keeps (within.mono fun _ => Inside.mono larger) held

theorem evaluateAll_succ (exprs : List (Expr Place))
    (inside : region.Inside machine.heap.size scope) :
    region.Stays (Interpreter.evaluateAll settings scope (fuel + 1) exprs) machine
      fun size values => ∀ value ∈ values, region.Holds size value := by
  cases exprs with
  | nil => exact .pure keeps (by simp)
  | cons expr rest =>
    refine (ih.evaluate expr keeps inside).bind fun value middle keeps grown within => ?_
    have further := ih.evaluateAll rest keeps (inside.mono grown)
    refine further.bind fun values after keeps larger held => .pure keeps ?_
    intro other member
    rcases List.mem_cons.mp member with rfl | member
    · exact within.mono fun _ => Inside.mono larger
    · exact held other member

theorem call_succ {callee : Value} {arguments : List Value} (line : Nat)
    (within : region.Holds machine.heap.size callee)
    (held : ∀ value ∈ arguments, region.Holds machine.heap.size value) :
    region.Stays (Interpreter.call settings (fuel + 1) callee arguments line) machine
      region.Holds := by
  cases callee with
  | function closure =>
    simp only [Interpreter.call]
    split
    · exact Stays.failing keeps
    apply (Stays.mayEnter keeps settings line).bind
    intro _ middle keeps grown _
    have held : ∀ value ∈ arguments, region.Holds middle.heap.size value :=
      fun value member => (held value member).mono fun _ => Inside.mono grown
    have made := Stays.enter keeps (Inside.mono grown within) (.ofArguments closure.params held)
    exact made.bind fun scope after keeps _ inside =>
      .inFrame (ih.executeAll closure.body keeps inside)
  | native native =>
    have read : region.Stays (Run.native settings native) machine region.Holds := by
      cases native
      exact ⟨keeps, Nat.le_refl _, trivial⟩
    simp only [Interpreter.call]
    split
    · exact Stays.failing keeps
    · exact read
  | nil | bool | number | string => exact .fail keeps

theorem execute_succ (stmt : Stmt Place) (inside : region.Inside machine.heap.size scope) :
    region.Stays (Interpreter.execute settings scope (fuel + 1) stmt) machine
      fun size signal => signal.Within (region.Inside size) := by
  cases stmt with
  | expression place expr =>
    exact (ih.evaluate expr keeps inside).bind fun _ _ keeps _ _ => .pure keeps trivial
  | print place expr =>
    refine (ih.evaluate expr keeps inside).bind fun value after keeps _ _ => ?_
    exact ⟨keeps, Nat.le_refl _, trivial⟩
  | declare place name initial =>
    cases initial with
    | none =>
      have bound : region.Stays (Run.bind name none scope) machine fun _ _ => True :=
        .bindName keeps inside (by simp)
      exact bound.bind fun _ _ keeps _ _ => .pure keeps trivial
    | some initial =>
      refine (ih.evaluate initial keeps inside).bind fun value after keeps grown within => ?_
      have held (own : Value) (same : some value = some own) :
          region.Holds after.heap.size own := Option.some.inj same ▸ within
      have bound : region.Stays (Run.bind name (some value) scope) after fun _ _ => True :=
        .bindName keeps (inside.mono grown) held
      exact bound.bind fun _ _ keeps _ _ => .pure keeps trivial
  | block place body =>
    have empty : Bindings.Within (region.Inside machine.heap.size) [] := by simp [Bindings.Within]
    have made := Stays.enter keeps inside empty
    exact made.bind fun inner after keeps _ inside => ih.executeAll body keeps inside
  | ifThen place condition body =>
    refine (ih.evaluate condition keeps inside).bind fun value after keeps grown _ => ?_
    split
    · exact ih.execute body keeps (inside.mono grown)
    · exact .pure keeps trivial
  | ifElse place condition body other =>
    refine (ih.evaluate condition keeps inside).bind fun value after keeps grown _ => ?_
    split
    · exact ih.execute body keeps (inside.mono grown)
    · exact ih.execute other keeps (inside.mono grown)
  | whileLoop place condition body => exact ih.repeatWhile condition body keeps inside
  | function place name params body =>
    exact (Stays.declareFunction keeps inside).bind fun _ _ keeps _ _ => .pure keeps trivial
  | returnValue place value =>
    cases value with
    | none => exact .pure keeps trivial
    | some expr =>
      exact (ih.evaluate expr keeps inside).bind fun _ _ keeps _ within => .pure keeps within
  | breakLoop place => exact .pure keeps trivial
  | continueLoop place => exact .pure keeps trivial

theorem executeAll_succ (stmts : List (Stmt Place))
    (inside : region.Inside machine.heap.size scope) :
    region.Stays (Interpreter.executeAll settings scope (fuel + 1) stmts) machine
      fun size signal => signal.Within (region.Inside size) := by
  cases stmts with
  | nil => exact .pure keeps trivial
  | cons stmt rest =>
    refine (ih.execute stmt keeps inside).bind fun signal after keeps grown within => ?_
    cases signal with
    | normal => exact ih.executeAll rest keeps (inside.mono grown)
    | returning value line => exact .pure keeps within
    | jumping jump line => exact .pure keeps trivial

theorem repeatWhile_succ (condition : Expr Place) (body : Stmt Place)
    (inside : region.Inside machine.heap.size scope) :
    region.Stays (Interpreter.repeatWhile settings scope (fuel + 1) condition body) machine
      fun size signal => signal.Within (region.Inside size) := by
  refine (ih.evaluate condition keeps inside).bind fun value middle keeps grown _ => ?_
  split
  · have inside := inside.mono grown
    refine (ih.execute body keeps inside).bind fun signal after keeps grown within => ?_
    have again := ih.repeatWhile condition body keeps (inside.mono grown)
    cases signal with
    | normal => exact again
    | returning value line => exact .pure keeps within
    | jumping jump line =>
      cases jump with
      | breaking => exact .pure keeps trivial
      | continuing => exact again
  · exact .pure keeps trivial

omit ih keeps in
/-- The induction over the evaluator, on the budget. -/
theorem everywhere (fuel : Nat) : region.Confines settings fuel := by
  induction fuel with
  | zero => exact zero
  | succ fuel ih =>
    constructor
    · exact fun expr keeps => ih.evaluate_succ keeps expr
    · exact fun exprs keeps => ih.evaluateAll_succ keeps exprs
    · exact fun line keeps => ih.call_succ keeps line
    · exact fun stmt keeps => ih.execute_succ keeps stmt
    · exact fun stmts keeps => ih.executeAll_succ keeps stmts
    · exact fun condition body keeps => ih.repeatWhile_succ keeps condition body

end Confines

theorem Stays.executeTop {region : Region} {settings : Settings} {fuel : Nat} {machine : Machine}
    {scope : ScopeId} (stmts : List (Stmt Place)) (keeps : region.Keeps machine.heap)
    (inside : region.Inside machine.heap.size scope) :
    region.Stays (Interpreter.executeTop settings scope fuel stmts) machine fun _ _ => True := by
  induction stmts generalizing machine with
  | nil => exact .pure keeps trivial
  | cons stmt rest ih =>
    refine ((Confines.everywhere fuel).execute stmt keeps inside).bind fun signal _ keeps grown _ => ?_
    cases signal with
    | normal => exact ih keeps (inside.mono grown)
    | returning | jumping => exact .fail keeps

end Lox.Region
