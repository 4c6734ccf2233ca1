import Lox.Proofs.GrammarTables
import Lox.Proofs.Sequencing
import Lox.Session

/-! What a program does depends on where its nodes stand only in the lines it reports. A run of the
tree without places, from a machine without places, is the run with them, but for those lines. -/

namespace Lox

mutual

theorem Expr.map_map {α β γ : Type} (f : α → β) (g : β → γ) (expr : Expr α) :
    (expr.map f).map g = expr.map (g ∘ f) := by
  cases expr with
  | literal | name => rfl
  | grouping place inner | unary place operator inner | assign place label inner =>
    simp only [map, map_map f g inner, Function.comp_apply]
  | binary place operator left right | logical place operator left right =>
    simp only [map, map_map f g left, map_map f g right, Function.comp_apply]
  | call place callee arguments =>
    simp only [map, map_map f g callee, mapAll_mapAll f g arguments, Function.comp_apply]

theorem Expr.mapAll_mapAll {α β γ : Type} (f : α → β) (g : β → γ) (exprs : List (Expr α)) :
    Expr.mapAll g (Expr.mapAll f exprs) = Expr.mapAll (g ∘ f) exprs := by
  cases exprs with
  | nil => rfl
  | cons expr rest => simp only [mapAll, map_map f g expr, mapAll_mapAll f g rest]

end

theorem Expr.map_comp_map {α β γ : Type} (f : α → β) (g : β → γ) :
    Expr.map g ∘ Expr.map f = Expr.map (g ∘ f) :=
  funext (Expr.map_map f g)

mutual

theorem Stmt.map_map {α β γ : Type} (f : α → β) (g : β → γ) (stmt : Stmt α) :
    (stmt.map f).map g = stmt.map (g ∘ f) := by
  cases stmt with
  | breakLoop | continueLoop => rfl
  | expression place expr | print place expr =>
    simp only [map, Expr.map_map f g expr, Function.comp_apply]
  | declare place name value | returnValue place value =>
    simp only [map, Option.map_map, Expr.map_comp_map, Function.comp_apply]
  | block place body | function place name params body =>
    simp only [map, mapAll_mapAll f g body, Function.comp_apply]
  | ifThen place condition body | whileLoop place condition body =>
    simp only [map, Expr.map_map f g condition, map_map f g body, Function.comp_apply]
  | ifElse place condition body other =>
    simp only [map, Expr.map_map f g condition, map_map f g body, map_map f g other,
      Function.comp_apply]

theorem Stmt.mapAll_mapAll {α β γ : Type} (f : α → β) (g : β → γ) (stmts : List (Stmt α)) :
    Stmt.mapAll g (Stmt.mapAll f stmts) = Stmt.mapAll (g ∘ f) stmts := by
  cases stmts with
  | nil => rfl
  | cons stmt rest => simp only [mapAll, map_map f g stmt, mapAll_mapAll f g rest]

end

def Place.unknown : Place := ⟨0, .nowhere⟩

def Expr.plain (expr : Expr Place) : Expr Place := expr.map fun _ => .unknown

def Stmt.plain (stmt : Stmt Place) : Stmt Place := stmt.map fun _ => .unknown

theorem Expr.mapAll_plain (exprs : List (Expr Place)) :
    Expr.mapAll (fun _ => Place.unknown) exprs = exprs.map Expr.plain :=
  mapAll_eq _ exprs

theorem Stmt.mapAll_plain (stmts : List (Stmt Place)) :
    Stmt.mapAll (fun _ => Place.unknown) stmts = stmts.map Stmt.plain :=
  mapAll_eq _ stmts

theorem Stmt.plain_of_bare {first second : List (Stmt Place)}
    (same : first.map Stmt.bare = second.map Stmt.bare) :
    first.map Stmt.plain = second.map Stmt.plain := by
  have through (stmt : Stmt Place) : stmt.plain = stmt.bare.map fun _ => .unknown :=
    (Stmt.map_map (fun _ => ()) (fun _ => Place.unknown) stmt).symm
  have again := congrArg (List.map (Stmt.map fun _ => Place.unknown)) same
  simpa only [List.map_map, Function.comp_def, ← through] using again

def Value.plain : Value → Value
  | .function closure => .function { closure with body := closure.body.map Stmt.plain }
  | value => value

namespace Value

@[simp] theorem plain_ofLiteral (value : Literal) : (ofLiteral value).plain = ofLiteral value := by
  cases value <;> rfl

@[simp] theorem isTruthy_plain (value : Value) : value.plain.isTruthy = value.isTruthy := by
  cases value <;> rfl

@[simp] theorem text_plain (value : Value) : value.plain.text = value.text := by
  cases value <;> rfl

@[simp] theorem typeName_plain (value : Value) : value.plain.typeName = value.typeName := by
  cases value <;> rfl

@[simp] theorem equals_plain (first second : Value) :
    first.plain.equals second.plain = first.equals second := by
  cases first <;> cases second <;> rfl

end Value

theorem UnaryOperator.apply_plain (operator : UnaryOperator) (operand : Value) :
    operator.apply operand.plain = (operator.apply operand).map Value.plain := by
  cases operator <;> cases operand <;> rfl

theorem BinaryOperator.calculate_plain (operator : BinaryOperator) (left right : Float) :
    (operator.calculate left right).map Value.plain = operator.calculate left right := by
  cases operator with
  | divide =>
    simp only [calculate]
    split <;> rfl
  | _ => rfl

theorem BinaryOperator.apply_plain (operator : BinaryOperator) (left right : Value) :
    operator.apply left.plain right.plain = (operator.apply left right).map Value.plain := by
  cases operator with
  | divide =>
    cases left <;> cases right <;> try rfl
    case number.number first second => exact (calculate_plain .divide first second).symm
  | _ => cases left <;> cases right <;> rfl

def Bindings.plain (bindings : Bindings) : Bindings :=
  bindings.map fun (name, value) => (name, value.map Value.plain)

namespace Bindings

theorem lookup_plain (bindings : Bindings) (name : String) :
    bindings.plain.lookup name = (bindings.lookup name).map (Option.map Value.plain) := by
  induction bindings with
  | nil => rfl
  | cons entry rest ih =>
    obtain ⟨key, value⟩ := entry
    simp only [plain, List.map_cons, List.lookup_cons] at ih ⊢
    cases name == key with
    | true => rfl
    | false => exact ih

theorem set_plain (bindings : Bindings) (name : String) (value : Option Value) :
    Bindings.set name (value.map Value.plain) bindings.plain = (bindings.set name value).plain := by
  induction bindings with
  | nil => rfl
  | cons entry rest ih =>
    simp only [plain, List.map_cons, Bindings.set] at ih ⊢
    split
    · rfl
    · rw [ih, List.map_cons]

/-- What a call binds its parameters to. -/
theorem ofArguments_plain (params : List String) (arguments : List Value) (bindings : Bindings) :
    (params.zip (arguments.map Value.plain)).foldl
        (fun bindings (name, value) => Bindings.set name (some value) bindings) bindings.plain =
      Bindings.plain ((params.zip arguments).foldl
        (fun bindings (name, value) => Bindings.set name (some value) bindings) bindings) := by
  induction params generalizing arguments bindings with
  | nil => rfl
  | cons param params ih =>
    cases arguments with
    | nil => rfl
    | cons value arguments =>
      rw [List.map_cons, List.zip_cons_cons, List.foldl_cons, List.zip_cons_cons, List.foldl_cons,
        ← ih, ← set_plain]
      rfl

end Bindings

def Scope.plain (scope : Scope) : Scope := { scope with bindings := scope.bindings.plain }

def Heap.plain (heap : Heap) : Heap := heap.map Scope.plain

namespace Heap

@[simp] theorem size_plain (heap : Heap) : heap.plain.size = heap.size := Array.size_map

theorem find_plain (heap : Heap) (name : String) (id : ScopeId) :
    heap.plain.find name id =
      (heap.find name id).map fun (owner, value) => (owner, value.map Value.plain) := by
  induction id using Nat.strongRecOn with
  | _ id ih =>
    rw [find, find]
    have read : heap.plain[id]? = heap[id]?.map Scope.plain := by simp [plain]
    rw [read]
    cases heap[id]? with
    | none => rfl
    | some scope =>
      simp only [Option.map_some, Scope.plain, Bindings.lookup_plain]
      cases scope.bindings.lookup name with
      | some value => rfl
      | none =>
        cases scope.parent with
        | none => rfl
        | some parent =>
          simp only [Option.map_none]
          split
          next older => exact ih parent older
          next => rfl

theorem bind_plain (heap : Heap) (name : String) (value : Option Value) (id : ScopeId) :
    heap.plain.bind name (value.map Value.plain) id = (heap.bind name value id).plain := by
  apply Array.ext
  · simp [bind, plain]
  intro other within _
  simp only [bind, plain, Array.getElem_map, Array.getElem_modify]
  split
  · simp only [Scope.plain, Bindings.set_plain]
  · rfl

theorem push_plain (heap : Heap) (scope : Scope) :
    heap.plain.push scope.plain = plain (heap.push scope) := by
  simp [plain]

end Heap

def Signal.plain : Signal → Signal
  | .normal => .normal
  | .returning value _ => .returning value.plain 0
  | .jumping jump _ => .jumping jump 0

def Frame.plain (frame : Frame) : Frame := { frame with line := 0 }

def RuntimeError.plain (error : RuntimeError) : RuntimeError :=
  { error with line := 0, backtrace := error.backtrace.map Frame.plain }

@[simp] theorem RuntimeError.plain_ofFault (line : Nat) (fault : RuntimeFault) :
    (ofFault line fault).plain = ofFault 0 fault := by
  simp [ofFault, plain]

@[simp] theorem RuntimeError.plain_within (error : RuntimeError) (frame : Frame) :
    (error.within frame).plain = error.plain.within frame.plain := by
  simp [within, plain]

def Stop.plain : Stop → Stop
  | .failed error => .failed error.plain
  | stop => stop

@[simp] theorem Stop.plain_failed (error : RuntimeError) :
    (failed error).plain = failed error.plain := rfl

@[simp] theorem ScopeError.plain_stop (line : Nat) (name : String) (error : ScopeError) :
    (error.stop line name).plain = error.stop 0 name := by
  cases error <;> simp [stop, Stop.plain]

def Machine.plain (machine : Machine) : Machine := { machine with heap := machine.heap.plain }

namespace Run

variable {α β γ δ : Type}

/-- What a run gives, without places. -/
def stripped (strip : α → β) : EStateM.Result Stop Machine α → EStateM.Result Stop Machine β
  | .ok value machine => .ok (strip value) machine.plain
  | .error stop machine => .error stop.plain machine.plain

/-- The second run does without places what the first does. -/
def Strips (strip : α → β) (run : Run α) (plain : Run β) : Prop :=
  ∀ machine, plain machine.plain = stripped strip (run machine)

namespace Strips

variable {strip : α → β} {run : Run α} {plain : Run β}

theorem pure {value : α} {value' : β} (same : strip value = value') :
    Strips strip (Pure.pure value) (Pure.pure value') :=
  fun machine => congrArg (EStateM.Result.ok · machine.plain) same.symm

theorem bind {strip' : γ → δ} {next : α → Run γ} {next' : β → Run δ}
    (first : Strips strip run plain) (goesOn : ∀ value, Strips strip' (next value) (next' (strip value))) :
    Strips strip' (run >>= next) (plain >>= next') := by
  intro machine
  have before := first machine
  cases ran : run machine with
  | error stop middle =>
    rw [ran] at before
    rw [Sequencing.bind_error ran, Sequencing.bind_error before]
    rfl
  | ok value middle =>
    rw [ran] at before
    rw [Sequencing.bind_ok ran, Sequencing.bind_ok before]
    exact goesOn value middle

theorem fail (line : Nat) (fault : RuntimeFault) :
    Strips strip (Run.fail line fault) (Run.fail 0 fault) := by
  intro machine
  simp [Run.fail, stripped]

/-- A check in front of what is done. -/
theorem guard {condition : Prop} [Decidable condition] (line : Nat) (fault : RuntimeFault)
    (goesOn : Strips strip run plain) :
    Strips strip (if condition then Run.fail line fault >>= fun _ : PUnit => run else run)
      (if condition then Run.fail 0 fault >>= fun _ : PUnit => plain else plain) := by
  split
  · have failing : Strips id (Run.fail line fault : Run PUnit) (Run.fail 0 fault) := fail line fault
    exact failing.bind fun _ => goesOn
  · exact goesOn

theorem lift (line : Nat) {result : Except RuntimeFault α} {result' : Except RuntimeFault β}
    (same : result' = result.map strip) : Strips strip (Run.lift line result) (Run.lift 0 result') := by
  subst same
  cases result with
  | ok value => exact pure rfl
  | error fault => exact fail line fault

theorem get (line : Nat) (name : String) (scope : ScopeId) :
    Strips Value.plain (Run.get line name scope) (Run.get 0 name scope) := by
  intro machine
  simp only [Run.get, Heap.get, Machine.plain, Heap.find_plain]
  cases machine.heap.find name scope with
  | error error => simp [Except.map, stripped, Machine.plain]
  | ok found =>
    obtain ⟨owner, value⟩ := found
    cases value <;> simp [Except.map, stripped, Machine.plain]

theorem assign (line : Nat) (name : String) (value : Value) (scope : ScopeId) :
    Strips id (Run.assign line name value scope) (Run.assign 0 name value.plain scope) := by
  intro machine
  simp only [Run.assign, Machine.plain, Heap.find_plain]
  cases machine.heap.find name scope with
  | error error => simp [Except.map, stripped, Machine.plain]
  | ok found =>
    obtain ⟨owner, old⟩ := found
    have written := Heap.bind_plain machine.heap name (some value) owner
    exact congrArg (fun heap => EStateM.Result.ok () { machine with heap }) written

theorem bindName (name : String) (value : Option Value) (scope : ScopeId) :
    Strips id (Run.bind name value scope) (Run.bind name (value.map Value.plain) scope) := by
  intro machine
  simp only [Run.bind, Machine.plain, Heap.size_plain, Heap.bind_plain]
  split <;> rfl

theorem enter (bindings : Bindings) (parent : ScopeId) :
    Strips id (Run.enter bindings parent) (Run.enter bindings.plain parent) := by
  intro machine
  have pushed := Heap.push_plain machine.heap ⟨bindings, some parent⟩
  simp only [Run.enter, Machine.plain, Heap.size_plain]
  split
  · exact congrArg (fun heap => EStateM.Result.ok machine.heap.size { machine with heap }) pushed
  · rfl

theorem print (value : Value) : Strips id (Run.print value) (Run.print value.plain) := by
  intro machine
  rw [Run.print, Value.text_plain]
  rfl

theorem native (settings : Settings) (native : Native) :
    Strips Value.plain (Run.native settings native) (Run.native settings native) := by
  cases native
  exact fun _ => rfl

theorem mayEnter (settings : Settings) (line : Nat) :
    Strips id (Run.mayEnter settings line) (Run.mayEnter settings 0) := by
  intro machine
  simp only [Run.mayEnter]
  cases settings.maxDepth with
  | none => rfl
  | some limit =>
    by_cases deep : limit ≤ machine.depth <;> simp [Machine.plain, deep, stripped]

theorem inFrame (frame : Frame) {body plain : Run Signal} (strips : Strips Signal.plain body plain) :
    Strips Value.plain (Run.inFrame frame body) (Run.inFrame frame.plain plain) := by
  intro machine
  have before := strips { machine with depth := machine.depth + 1 }
  have deeper : { machine.plain with depth := machine.plain.depth + 1 } =
      Machine.plain { machine with depth := machine.depth + 1 } := rfl
  simp only [Run.inFrame, deeper, before]
  cases body { machine with depth := machine.depth + 1 } with
  | ok signal after =>
    cases signal <;> simp [stripped, Signal.plain, Run.finish, Machine.plain, Value.plain]
  | error stop after => cases stop <;> simp [stripped, Stop.plain, Machine.plain]

theorem declareFunction (name : String) (params : List String) (body : List (Stmt Place))
    (scope : ScopeId) : Strips id (Run.declareFunction name params body scope)
      (Run.declareFunction name params (body.map Stmt.plain) scope) := by
  have made : Strips id newFunction newFunction := fun _ => rfl
  exact made.bind fun id => .bindName name (some (.function ⟨id, name, params, body, scope⟩)) scope

end Strips
end Run

namespace Interpreter
open Run

variable (settings : Settings)

/-- Every part of the evaluator, with some budget, does the same without places. -/
structure Stripped (fuel : Nat) : Prop where
  evaluate : ∀ scope expr, Strips Value.plain (evaluate settings scope fuel expr)
    (evaluate settings scope fuel expr.plain)
  evaluateAll : ∀ scope exprs, Strips (List.map Value.plain)
    (evaluateAll settings scope fuel exprs) (evaluateAll settings scope fuel (exprs.map Expr.plain))
  call : ∀ callee arguments line, Strips Value.plain (call settings fuel callee arguments line)
    (call settings fuel callee.plain (arguments.map Value.plain) 0)
  execute : ∀ scope stmt, Strips Signal.plain (execute settings scope fuel stmt)
    (execute settings scope fuel stmt.plain)
  executeAll : ∀ scope stmts, Strips Signal.plain (executeAll settings scope fuel stmts)
    (executeAll settings scope fuel (stmts.map Stmt.plain))
  repeatWhile : ∀ scope condition body, Strips Signal.plain
    (repeatWhile settings scope fuel condition body)
    (repeatWhile settings scope fuel condition.plain body.plain)

namespace Stripped

theorem zero : Stripped settings 0 where
  evaluate _ _ _ := rfl
  evaluateAll _ _ _ := rfl
  call _ _ _ _ := rfl
  execute _ _ _ := rfl
  executeAll _ _ _ := rfl
  repeatWhile _ _ _ _ := rfl

variable {settings} {fuel : Nat} (ih : Stripped settings fuel) (scope : ScopeId)
include ih

theorem evaluate_succ (expr : Expr Place) :
    Strips Value.plain (Interpreter.evaluate settings scope (fuel + 1) expr)
      (Interpreter.evaluate settings scope (fuel + 1) expr.plain) := by
  cases expr with
  | literal place value => exact .pure (Value.plain_ofLiteral value)
  | grouping place inner => exact ih.evaluate scope inner
  | unary place operator operand =>
    exact (ih.evaluate scope operand).bind fun value =>
      .lift place.line (operator.apply_plain value)
  | binary place operator left right =>
    refine (ih.evaluate scope left).bind fun first => (ih.evaluate scope right).bind fun second => ?_
    exact .lift place.line (operator.apply_plain first second)
  | logical place operator left right =>
    cases operator with
    | or =>
      refine (ih.evaluate scope left).bind fun first => ?_
      rw [Value.isTruthy_plain]
      split
      · exact .pure rfl
      · exact ih.evaluate scope right
    | and =>
      refine (ih.evaluate scope left).bind fun first => ?_
      rw [Value.isTruthy_plain]
      split
      · exact ih.evaluate scope right
      · exact .pure rfl
  | name place name => exact .get place.line name scope
  | assign place name value =>
    refine (ih.evaluate scope value).bind fun value => ?_
    exact (Strips.assign place.line name value scope).bind fun _ => .pure rfl
  | call place callee arguments =>
    rw [Expr.plain, Expr.map, Expr.mapAll_plain]
    refine (ih.evaluate scope callee).bind fun callee => ?_
    exact (ih.evaluateAll scope arguments).bind fun values => ih.call callee values place.line

theorem evaluateAll_succ (exprs : List (Expr Place)) :
    Strips (List.map Value.plain) (Interpreter.evaluateAll settings scope (fuel + 1) exprs)
      (Interpreter.evaluateAll settings scope (fuel + 1) (exprs.map Expr.plain)) := by
  cases exprs with
  | nil => exact .pure rfl
  | cons expr rest =>
    refine (ih.evaluate scope expr).bind fun value => ?_
    exact (ih.evaluateAll scope rest).bind fun values => .pure rfl

theorem call_succ (callee : Value) (arguments : List Value) (line : Nat) :
    Strips Value.plain (Interpreter.call settings (fuel + 1) callee arguments line)
      (Interpreter.call settings (fuel + 1) callee.plain (arguments.map Value.plain) 0) := by
  cases callee with
  | function closure =>
    have bound := Bindings.ofArguments_plain closure.params arguments []
    have body (bindings : Bindings) : Strips Value.plain
        (Run.enter bindings closure.scope >>= fun scope => Run.inFrame ⟨closure.name, line⟩
          (Interpreter.executeAll settings scope fuel closure.body))
        (Run.enter bindings.plain closure.scope >>= fun scope => Run.inFrame ⟨closure.name, 0⟩
          (Interpreter.executeAll settings scope fuel (closure.body.map Stmt.plain))) :=
      (Strips.enter bindings closure.scope).bind fun scope => .inFrame _ (ih.executeAll scope _)
    have inside := body ((closure.params.zip arguments).foldl
      (fun bindings (name, value) => Bindings.set name (some value) bindings) [])
    rw [← bound] at inside
    have arity : Closure.arity { closure with body := closure.body.map Stmt.plain } =
        closure.arity := rfl
    simp only [Interpreter.call, Value.plain, List.length_map, arity]
    exact .guard line _ ((Strips.mayEnter settings line).bind fun _ => inside)
  | native native =>
    simp only [Interpreter.call, Value.plain, List.length_map]
    exact .guard line _ (.native settings native)
  | nil | bool | number | string => exact .fail line _

theorem execute_succ (stmt : Stmt Place) :
    Strips Signal.plain (Interpreter.execute settings scope (fuel + 1) stmt)
      (Interpreter.execute settings scope (fuel + 1) stmt.plain) := by
  cases stmt with
  | expression place expr => exact (ih.evaluate scope expr).bind fun _ => .pure rfl
  | print place expr =>
    exact (ih.evaluate scope expr).bind fun value => (Strips.print value).bind fun _ => .pure rfl
  | declare place name initial =>
    cases initial with
    | none => exact (Strips.bindName name none scope).bind fun _ => .pure rfl
    | some initial =>
      refine (ih.evaluate scope initial).bind fun value => ?_
      exact (Strips.bindName name (some value) scope).bind fun _ => .pure rfl
  | block place body =>
    rw [Stmt.plain, Stmt.map, Stmt.mapAll_plain]
    exact (Strips.enter [] scope).bind fun inner => ih.executeAll inner body
  | ifThen place condition body =>
    refine (ih.evaluate scope condition).bind fun value => ?_
    rw [Value.isTruthy_plain]
    split
    · exact ih.execute scope body
    · exact .pure rfl
  | ifElse place condition body other =>
    refine (ih.evaluate scope condition).bind fun value => ?_
    rw [Value.isTruthy_plain]
    split
    · exact ih.execute scope body
    · exact ih.execute scope other
  | whileLoop place condition body => exact ih.repeatWhile scope condition body
  | function place name params body =>
    rw [Stmt.plain, Stmt.map, Stmt.mapAll_plain]
    exact (Strips.declareFunction name params body scope).bind fun _ => .pure rfl
  | returnValue place value =>
    cases value with
    | none => exact .pure rfl
    | some expr => exact (ih.evaluate scope expr).bind fun value => .pure rfl
  | breakLoop place | continueLoop place => exact .pure rfl

theorem executeAll_succ (stmts : List (Stmt Place)) :
    Strips Signal.plain (Interpreter.executeAll settings scope (fuel + 1) stmts)
      (Interpreter.executeAll settings scope (fuel + 1) (stmts.map Stmt.plain)) := by
  cases stmts with
  | nil => exact .pure rfl
  | cons stmt rest =>
    refine (ih.execute scope stmt).bind fun signal => ?_
    cases signal with
    | normal => exact ih.executeAll scope rest
    | returning value line | jumping jump line => exact .pure rfl

theorem repeatWhile_succ (condition : Expr Place) (body : Stmt Place) :
    Strips Signal.plain (Interpreter.repeatWhile settings scope (fuel + 1) condition body)
      (Interpreter.repeatWhile settings scope (fuel + 1) condition.plain body.plain) := by
  refine (ih.evaluate scope condition).bind fun value => ?_
  rw [Value.isTruthy_plain]
  split
  · refine (ih.execute scope body).bind fun signal => ?_
    cases signal with
    | normal => exact ih.repeatWhile scope condition body
    | returning value line => exact .pure rfl
    | jumping jump line =>
      cases jump with
      | breaking => exact .pure rfl
      | continuing => exact ih.repeatWhile scope condition body
  · exact .pure rfl

omit ih in
/-- The induction over the evaluator, on the budget. -/
theorem everywhere (fuel : Nat) : Stripped settings fuel := by
  induction fuel with
  | zero => exact zero settings
  | succ fuel ih =>
    constructor
    · exact ih.evaluate_succ
    · exact ih.evaluateAll_succ
    · exact ih.call_succ
    · exact ih.execute_succ
    · exact ih.executeAll_succ
    · exact ih.repeatWhile_succ

end Stripped

theorem executeTop_stripped (scope : ScopeId) (fuel : Nat) (stmts : List (Stmt Place)) :
    Strips id (executeTop settings scope fuel stmts)
      (executeTop settings scope fuel (stmts.map Stmt.plain)) := by
  induction stmts with
  | nil => exact .pure rfl
  | cons stmt rest ih =>
    refine ((Stripped.everywhere fuel).execute scope stmt).bind fun signal => ?_
    cases signal with
    | normal => exact ih
    | returning value line | jumping jump line => exact .fail line _

/-- Two programs with the same trees do the same but for the lines they report. -/
theorem executeTop_of_bare (scope : ScopeId) (fuel : Nat) {first second : Program}
    (same : first.map Stmt.bare = second.map Stmt.bare) (machine : Machine) :
    stripped id (executeTop settings scope fuel first machine) =
      stripped id (executeTop settings scope fuel second machine) := by
  rw [← executeTop_stripped settings scope fuel first machine, Stmt.plain_of_bare same]
  exact executeTop_stripped settings scope fuel second machine

end Interpreter
end Lox
