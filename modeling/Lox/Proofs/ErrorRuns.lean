import Lox.Proofs.ErrorOrigins
import Lox.Proofs.RunFuel

/-! The evaluator as a whole accounts for its errors and signals, whatever body it runs. -/

namespace Lox

theorem UnaryOperator.fault_of_apply {operator : UnaryOperator} {operand : Value}
    {fault : RuntimeFault} (failed : operator.apply operand = .error fault) : fault.OfOperands := by
  unfold apply at failed
  split at failed <;> cases failed
  trivial

theorem BinaryOperator.fault_of_calculate {operator : BinaryOperator} {left right : Float}
    {fault : RuntimeFault} (failed : operator.calculate left right = .error fault) :
    fault.OfOperands := by
  cases operator <;> simp only [calculate] at failed
  case divide => split at failed <;> cases failed; trivial
  all_goals cases failed

theorem BinaryOperator.fault_of_apply {operator : BinaryOperator} {left right : Value}
    {fault : RuntimeFault} (failed : operator.apply left right = .error fault) : fault.OfOperands := by
  unfold apply at failed
  split at failed
  case h_4 => exact fault_of_calculate failed
  all_goals
    cases failed
    try trivial

namespace Callees
open Interpreter

/-- Every part of the evaluator accounts for what it runs with some budget. A call is made at a node
of the body that is running. -/
structure Covers (callees : Callees) (settings : Settings) (fuel : Nat) : Prop where
  evaluate : ∀ {parts machine scope} expr, expr.parts ⊆ parts → callees.Stores machine.heap →
    callees.scope scope →
      callees.Accounts parts (evaluate settings scope fuel expr) machine callees.Holds
  evaluateAll : ∀ {parts machine scope} exprs, Expr.partsAll exprs ⊆ parts →
    callees.Stores machine.heap → callees.scope scope →
      callees.Accounts parts (evaluateAll settings scope fuel exprs) machine fun values =>
        ∀ value ∈ values, callees.Holds value
  call : ∀ {parts machine callee values place node arguments},
    .expr (.call place node arguments) ∈ parts → callees.Stores machine.heap →
      callees.Holds callee → (∀ value ∈ values, callees.Holds value) →
        callees.Accounts parts (call settings fuel callee values place.line) machine callees.Holds
  execute : ∀ {parts machine scope} stmt, stmt.parts ⊆ parts → callees.Declared parts →
    callees.Stores machine.heap → callees.scope scope →
      callees.Accounts parts (execute settings scope fuel stmt) machine (callees.Passes stmt.exits)
  executeAll : ∀ {parts machine scope} stmts, Stmt.partsAll stmts ⊆ parts →
    callees.Declared parts → callees.Stores machine.heap → callees.scope scope →
      callees.Accounts parts (executeAll settings scope fuel stmts) machine
        (callees.Passes (Stmt.exitsAll stmts))
  repeatWhile : ∀ {parts machine scope} condition body, condition.parts ⊆ parts →
    body.parts ⊆ parts → callees.Declared parts → callees.Stores machine.heap →
      callees.scope scope →
        callees.Accounts parts (repeatWhile settings scope fuel condition body) machine
          (callees.Passes (body.exits.filter Exit.isReturn))

namespace Covers

variable {callees : Callees} {settings : Settings} {fuel : Nat}

theorem zero : callees.Covers settings 0 := by
  constructor
  all_goals
    intros
    trivial

variable (ih : callees.Covers settings fuel) {parts : List Part} {machine : Machine}
  {scope : ScopeId} (stores : callees.Stores machine.heap)
include ih stores

theorem evaluate_succ (within : callees.scope scope) (expr : Expr Place)
    (inside : expr.parts ⊆ parts) :
    callees.Accounts parts (Interpreter.evaluate settings scope (fuel + 1) expr) machine
      callees.Holds := by
  have here := inside expr.mem_parts
  cases expr with
  | literal place value =>
    apply Accounts.pure stores
    cases value <;> trivial
  | grouping place inner => exact ih.evaluate inner (List.cons_subset.mp inside).2 stores within
  | unary place operator operand =>
    apply (ih.evaluate operand (List.cons_subset.mp inside).2 stores within).bind
    intro value after stores held
    exact .lift stores here (fun _ => UnaryOperator.apply_meets) fun _ => UnaryOperator.fault_of_apply
  | binary place operator left right =>
    obtain ⟨first, second⟩ := List.append_subset.mp (List.cons_subset.mp inside).2
    apply (ih.evaluate left first stores within).bind
    intro value middle stores held
    apply (ih.evaluate right second stores within).bind
    intro other after stores held'
    exact .lift stores here (fun _ => BinaryOperator.apply_meets) fun _ => BinaryOperator.fault_of_apply
  | logical place operator left right =>
    obtain ⟨first, second⟩ := List.append_subset.mp (List.cons_subset.mp inside).2
    cases operator with
    | or =>
      apply (ih.evaluate left first stores within).bind
      intro value after stores held
      split
      · exact .pure stores held
      · exact ih.evaluate right second stores within
    | and =>
      apply (ih.evaluate left first stores within).bind
      intro value after stores held
      split
      · exact ih.evaluate right second stores within
      · exact .pure stores held
  | name place name => exact .get stores within here rfl
  | assign place name value =>
    apply (ih.evaluate value (List.cons_subset.mp inside).2 stores within).bind
    intro value middle stores held
    apply (Accounts.assign stores here rfl held).bind
    intro _ after stores _
    exact .pure stores held
  | call place callee arguments =>
    obtain ⟨first, rest⟩ := List.append_subset.mp (List.cons_subset.mp inside).2
    apply (ih.evaluate callee first stores within).bind
    intro value middle stores held
    apply (ih.evaluateAll arguments rest stores within).bind
    intro values after stores held'
    exact ih.call here stores held held'

theorem evaluateAll_succ (within : callees.scope scope) (exprs : List (Expr Place))
    (inside : Expr.partsAll exprs ⊆ parts) :
    callees.Accounts parts (Interpreter.evaluateAll settings scope (fuel + 1) exprs) machine
      fun values => ∀ value ∈ values, callees.Holds value := by
  cases exprs with
  | nil => exact .pure stores (by simp)
  | cons expr rest =>
    obtain ⟨first, later⟩ := List.append_subset.mp inside
    apply (ih.evaluate expr first stores within).bind
    intro value middle stores held
    apply (ih.evaluateAll rest later stores within).bind
    intro values after stores held'
    apply Accounts.pure stores
    simpa using ⟨held, held'⟩

theorem call_succ (limited : settings.maxDepth = callees.limit) {callee : Value}
    {values : List Value} {place : Place} {node : Expr Place} {arguments : List (Expr Place)}
    (inside : .expr (.call place node arguments) ∈ parts) (held : callees.Holds callee)
    (held' : ∀ value ∈ values, callees.Holds value) :
    callees.Accounts parts (Interpreter.call settings (fuel + 1) callee values place.line) machine
      callees.Holds := by
  have failing {α β : Type} {fault : RuntimeFault} {next : α → Run β} {post : β → Prop}
      (plain : fault.Plain) (told : callees.Tells (.call place node arguments) fault) :
      callees.Accounts parts (Run.fail place.line fault >>= next) machine post :=
    .failing stores inside plain told
  cases callee with
  | function closure =>
    simp only [Interpreter.call]
    split
    · exact failing trivial (.inr ⟨_, _, held.1⟩)
    apply (Accounts.mayEnter limited stores inside).bindLevel
    intro _ middle stores same admits
    apply (Accounts.enter stores held.2 (.ofArguments closure.params held')).bindLevel
    intro inner after stores same' within
    -- Neither the check nor the new scope has changed how deep the calls are nested.
    rw [← same, ← same'] at admits
    apply Accounts.inFrame inside held.1 admits
    exact ih.executeAll closure.body (List.Subset.refl _) (callees.closed held.1) stores within
  | native native =>
    simp only [Interpreter.call]
    split
    · exact failing trivial (.inl ⟨native, rfl⟩)
    · cases native
      exact ⟨stores, rfl, trivial⟩
  | nil | bool | number | string => exact .fail stores inside trivial ⟨_, rfl⟩

theorem execute_succ (within : callees.scope scope) (stmt : Stmt Place) (inside : stmt.parts ⊆ parts)
    (declared : callees.Declared parts) :
    callees.Accounts parts (Interpreter.execute settings scope (fuel + 1) stmt) machine
      (callees.Passes stmt.exits) := by
  have here := inside stmt.mem_parts
  cases stmt with
  | expression place expr =>
    apply (ih.evaluate expr (List.cons_subset.mp inside).2 stores within).bind
    intro _ after stores _
    exact .pure stores trivial
  | print place expr =>
    apply (ih.evaluate expr (List.cons_subset.mp inside).2 stores within).bind
    intro value after stores _
    exact ⟨stores, rfl, trivial⟩
  | declare place name initial =>
    cases initial with
    | none =>
      have unbound : callees.Accounts parts (Run.bind name none scope) machine fun _ => True :=
        .bindName stores nofun
      apply unbound.bind
      intro _ after stores _
      exact .pure stores trivial
    | some initial =>
      apply (ih.evaluate initial (List.cons_subset.mp inside).2 stores within).bind
      intro value middle stores held
      have bound : callees.Accounts parts (Run.bind name (some value) scope) middle fun _ => True :=
        .bindName stores fun _ same => Option.some.inj same ▸ held
      apply bound.bind
      intro _ after stores _
      exact .pure stores trivial
  | block place body =>
    have empty : Bindings.Meets callees.Includes [] := by simp [Bindings.Meets]
    apply (Accounts.enter stores within empty).bind
    intro inner after stores within
    exact ih.executeAll body (List.cons_subset.mp inside).2 declared stores within
  | ifThen place condition body =>
    obtain ⟨first, second⟩ := List.append_subset.mp (List.cons_subset.mp inside).2
    apply (ih.evaluate condition first stores within).bind
    intro value after stores _
    split
    · exact ih.execute body second declared stores within
    · exact .pure stores trivial
  | ifElse place condition body other =>
    obtain ⟨first, rest⟩ := List.append_subset.mp (List.cons_subset.mp inside).2
    obtain ⟨second, third⟩ := List.append_subset.mp rest
    apply (ih.evaluate condition first stores within).bind
    intro value after stores _
    split
    · exact (ih.execute body second declared stores within).mono fun _ passes =>
        passes.mono (List.subset_append_left _ _)
    · exact (ih.execute other third declared stores within).mono fun _ passes =>
        passes.mono (List.subset_append_right _ _)
  | whileLoop place condition body =>
    obtain ⟨first, second⟩ := List.append_subset.mp (List.cons_subset.mp inside).2
    exact ih.repeatWhile condition body first second declared stores within
  | function place name params body =>
    apply (Accounts.declareFunction stores within (declared here)).bind
    intro _ after stores _
    exact .pure stores trivial
  | returnValue place value =>
    cases value with
    | none => exact .pure stores ⟨trivial, List.mem_singleton_self _⟩
    | some expr =>
      apply (ih.evaluate expr (List.cons_subset.mp inside).2 stores within).bind
      intro value after stores held
      exact .pure stores ⟨held, List.mem_singleton_self _⟩
  | breakLoop place => exact .pure stores (List.mem_singleton_self _)
  | continueLoop place => exact .pure stores (List.mem_singleton_self _)

theorem executeAll_succ (within : callees.scope scope) (stmts : List (Stmt Place))
    (inside : Stmt.partsAll stmts ⊆ parts) (declared : callees.Declared parts) :
    callees.Accounts parts (Interpreter.executeAll settings scope (fuel + 1) stmts) machine
      (callees.Passes (Stmt.exitsAll stmts)) := by
  cases stmts with
  | nil => exact .pure stores trivial
  | cons stmt rest =>
    obtain ⟨first, later⟩ := List.append_subset.mp inside
    apply (ih.execute stmt first declared stores within).bind
    intro signal after stores passes
    have passes := passes.mono (List.subset_append_left stmt.exits (Stmt.exitsAll rest))
    cases signal with
    | normal =>
      exact (ih.executeAll rest later declared stores within).mono fun _ passes =>
        passes.mono (List.subset_append_right _ _)
    | returning value line => exact .pure stores passes
    | jumping jump line => exact .pure stores passes

theorem repeatWhile_succ (within : callees.scope scope) (condition : Expr Place)
    (body : Stmt Place) (first : condition.parts ⊆ parts) (second : body.parts ⊆ parts)
    (declared : callees.Declared parts) :
    callees.Accounts parts (Interpreter.repeatWhile settings scope (fuel + 1) condition body) machine
      (callees.Passes (body.exits.filter Exit.isReturn)) := by
  apply (ih.evaluate condition first stores within).bind
  intro value middle stores _
  split
  · apply (ih.execute body second declared stores within).bind
    intro signal after stores passes
    cases signal with
    | normal => exact ih.repeatWhile condition body first second declared stores within
    | returning value line =>
      exact .pure stores ⟨passes.1, List.mem_filter.mpr ⟨passes.2, rfl⟩⟩
    | jumping jump line =>
      cases jump with
      | breaking => exact .pure stores trivial
      | continuing => exact ih.repeatWhile condition body first second declared stores within
  · exact .pure stores trivial

omit ih stores in
/-- The induction over the evaluator, on the budget. -/
theorem everywhere (limited : settings.maxDepth = callees.limit) (fuel : Nat) :
    callees.Covers settings fuel := by
  induction fuel with
  | zero => exact zero
  | succ fuel ih =>
    constructor
    · exact fun expr inside stores within => ih.evaluate_succ stores within expr inside
    · exact fun exprs inside stores within => ih.evaluateAll_succ stores within exprs inside
    · exact fun inside stores => ih.call_succ stores limited inside
    · exact fun stmt inside declared stores within =>
        ih.execute_succ stores within stmt inside declared
    · exact fun stmts inside declared stores within =>
        ih.executeAll_succ stores within stmts inside declared
    · exact fun condition body first second declared stores within =>
        ih.repeatWhile_succ stores within condition body first second declared

end Covers

/-- What comes of statements at the top level: an error is one of theirs, or they were left. -/
def Concludes (callees : Callees) (parts : List Part) (depth : Nat) (exits : List Exit) :
    EStateM.Result Stop Machine Unit → Prop
  | .ok _ after => callees.Stores after.heap
  | .error (.failed error) after => callees.Stores after.heap ∧
      (callees.Explains parts depth error ∨ ∃ exit ∈ exits, error = exit.error)
  | .error _ _ => True

theorem Concludes.mono {callees : Callees} {parts : List Part} {depth : Nat} {exits more : List Exit}
    {result : EStateM.Result Stop Machine Unit}
    (concludes : callees.Concludes parts depth exits result) (among : exits ⊆ more) :
    callees.Concludes parts depth more result := by
  unfold Concludes at *
  split <;> rename_i ended
  · exact concludes
  · obtain ⟨stores, explained | ⟨exit, member, same⟩⟩ := concludes
    · exact ⟨stores, .inl explained⟩
    · exact ⟨stores, .inr ⟨exit, among member, same⟩⟩
  · trivial

theorem Covers.executeTop {callees : Callees} {settings : Settings} {fuel : Nat}
    (covers : callees.Covers settings fuel) {parts : List Part} (declared : callees.Declared parts)
    {scope : ScopeId} (within : callees.scope scope) {stmts : List (Stmt Place)}
    (inside : Stmt.partsAll stmts ⊆ parts) {machine : Machine}
    (stores : callees.Stores machine.heap) :
    callees.Concludes parts machine.depth (Stmt.exitsAll stmts)
      (Interpreter.executeTop settings scope fuel stmts machine) := by
  induction stmts generalizing machine with
  | nil => exact stores
  | cons stmt rest ih =>
    obtain ⟨first, later⟩ := List.append_subset.mp inside
    have accounts := covers.execute stmt first declared stores within
    unfold Accounts at accounts
    cases ran : Interpreter.execute settings scope fuel stmt machine with
    | error stop after =>
      rw [ran] at accounts
      rw [Interpreter.executeTop, Sequencing.bind_error ran]
      cases stop with
      | failed error => exact ⟨accounts.1, .inl accounts.2.2⟩
      | exhausted | dangling => trivial
    | ok signal after =>
      rw [ran] at accounts
      obtain ⟨stores, same, passes⟩ := accounts
      have passes := passes.mono (List.subset_append_left stmt.exits (Stmt.exitsAll rest))
      rw [Interpreter.executeTop, Sequencing.bind_ok ran]
      cases signal with
      | normal =>
        rw [← same]
        exact (ih later stores).mono (List.subset_append_right _ _)
      | returning value line => exact ⟨stores, .inr ⟨_, passes.2, rfl⟩⟩
      | jumping jump line => exact ⟨stores, .inr ⟨_, passes, rfl⟩⟩

end Callees

namespace Session

theorem start_stores (settings : Settings) {callees : Callees}
    (later : ∀ id, 1 ≤ id → callees.scope id) :
    callees.Stores (Session.start settings).machine.heap :=
  start_meets settings later

/-- Running a program in a session, with what functions it may call. -/
theorem interpret_concludes {session : Session} {callees : Callees} {program : Program} {fuel : Nat}
    {outcome : Outcome (Except RuntimeError Unit)}
    (limited : session.settings.maxDepth = callees.limit) (within : callees.scope session.globals)
    (declared : callees.Declared (Stmt.partsAll program))
    (stores : callees.Stores session.machine.heap)
    (ran : session.interpret fuel program = .ok outcome) :
    callees.Stores outcome.session.machine.heap ∧ ∀ error, outcome.result = .error error →
      callees.Explains (Stmt.partsAll program) session.machine.depth error ∨
        ∃ exit ∈ Stmt.exitsAll program, error = exit.error := by
  obtain ⟨machine, ended, -, after⟩ := perform_eq_ok.mp ran
  have covers := Callees.Covers.everywhere limited fuel
  have concludes : callees.Concludes (Stmt.partsAll program) session.machine.depth
      (Stmt.exitsAll program) (Interpreter.executeTop session.settings session.globals fuel program
        { session.machine with printed := #[] }) :=
    covers.executeTop declared within (List.Subset.refl _) stores
  rw [ended] at concludes
  rw [after]
  cases result : outcome.result with
  | ok value =>
    rw [result] at concludes
    exact ⟨concludes, nofun⟩
  | error error =>
    rw [result] at concludes
    refine ⟨concludes.1, ?_⟩
    intro other same
    cases same
    exact concludes.2

end Session
end Lox
