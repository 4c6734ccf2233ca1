import Lox.Proofs.DeclarationSites
import Lox.Proofs.Sequencing
import Lox.Proofs.StoredClosures

/-! Declarations stay in their scope. No run takes a name out of a scope or puts a scope elsewhere,
and the names that come in are those that are declared by what runs in that very scope. -/

namespace Lox

/-- How a scope may change while some names may be declared in it, with a value or without one. -/
structure Scope.Evolves (declares : String → Bool → Prop) (before after : Scope) : Prop where
  parent : after.parent = before.parent
  kept : ∀ name, (before.bindings.lookup name).isSome → (after.bindings.lookup name).isSome
  added : ∀ name, (after.bindings.lookup name).isSome →
    (before.bindings.lookup name).isSome ∨ ∃ valued, declares name valued
  valued : ∀ name value, before.bindings.lookup name = some (some value) →
    (∃ other, after.bindings.lookup name = some (some other)) ∨ declares name false

/-- Every scope is still there, and has changed only as it may. -/
def Heap.Evolves (declares : ScopeId → String → Bool → Prop) (before after : Heap) : Prop :=
  ∀ (id : ScopeId) (scope : Scope), before[id]? = some scope →
    ∃ later, after[id]? = some later ∧ scope.Evolves (declares id) later

theorem Bindings.lookup_set (bindings : Bindings) (name key : String) (value : Option Value) :
    (bindings.set name value).lookup key =
      if key = name then some value else bindings.lookup key := by
  induction bindings with
  | nil =>
    rw [set, List.lookup_cons]
    by_cases same : key = name
    · simp [same]
    · simp [same, beq_false_of_ne same]
  | cons entry rest ih =>
    obtain ⟨own, old⟩ := entry
    by_cases named : own = name
    · subst named
      by_cases same : key = own
      · simp [set, same]
      · simp [set, List.lookup_cons, same, beq_false_of_ne same]
    · by_cases same : key = own
      · simp [set, named, same]
      · simp [set, List.lookup_cons, named, beq_false_of_ne same, ih]

namespace Scope.Evolves

variable {declares : String → Bool → Prop} {first second third : Scope}

theorem refl (scope : Scope) : scope.Evolves declares scope :=
  ⟨rfl, fun _ bound => bound, fun _ bound => .inl bound, fun _ value held => .inl ⟨value, held⟩⟩

theorem trans (before : first.Evolves declares second) (after : second.Evolves declares third) :
    first.Evolves declares third where
  parent := after.parent.trans before.parent
  kept name bound := after.kept name (before.kept name bound)
  added name bound := (after.added name bound).elim (before.added name) .inr
  valued name value held := by
    rcases before.valued name value held with ⟨other, held⟩ | lost
    · exact after.valued name other held
    · exact .inr lost

theorem mono {wider : String → Bool → Prop} (evolves : first.Evolves declares second)
    (grows : ∀ name valued, declares name valued → wider name valued) :
    first.Evolves wider second where
  parent := evolves.parent
  kept := evolves.kept
  added name bound := (evolves.added name bound).imp_right fun ⟨valued, allowed⟩ =>
    ⟨valued, grows name valued allowed⟩
  valued name value held := (evolves.valued name value held).imp_right (grows name false)

/-- A name is bound that may be declared, or that has been bound before and gets a value. -/
theorem bind (scope : Scope) {name : String} {value : Option Value}
    (allowed : declares name value.isSome ∨
      (scope.bindings.lookup name).isSome ∧ value.isSome) :
    scope.Evolves declares { scope with bindings := scope.bindings.set name value } where
  parent := rfl
  kept key bound := by
    rw [Bindings.lookup_set]
    split
    · rfl
    · exact bound
  added key bound := by
    rw [Bindings.lookup_set] at bound
    split at bound
    next same =>
      subst same
      rcases allowed with declared | ⟨before, -⟩
      · exact .inr ⟨_, declared⟩
      · exact .inl before
    next => exact .inl bound
  valued key own held := by
    rw [Bindings.lookup_set]
    split
    next same =>
      subst same
      cases value with
      | some value => exact .inl ⟨value, rfl⟩
      | none =>
        rcases allowed with declared | ⟨-, impossible⟩
        · exact .inr declared
        · cases impossible
    next => exact .inl ⟨own, held⟩

end Scope.Evolves

namespace Heap

variable {declares : ScopeId → String → Bool → Prop} {first second third heap : Heap}
  {scope : ScopeId} {name : String}

theorem find_bound {owner : ScopeId} {binding : Option Value}
    (found : heap.find name scope = .ok (owner, binding)) :
    ∃ made, heap[owner]? = some made ∧ made.bindings.lookup name = some binding := by
  fun_induction Heap.find heap name scope with
  | case1 id missing => cases found
  | case2 id scope made value bound =>
    cases found
    exact ⟨scope, made, bound⟩
  | case3 id scope made unbound last => cases found
  | case4 id scope made unbound parent outer older ih => exact ih found
  | case5 id scope made unbound parent outer younger => cases found

namespace Evolves

theorem refl (heap : Heap) : heap.Evolves declares heap :=
  fun _ scope made => ⟨scope, made, .refl scope⟩

theorem trans (before : first.Evolves declares second) (after : second.Evolves declares third) :
    first.Evolves declares third := by
  intro id scope made
  obtain ⟨middle, made, evolves⟩ := before id scope made
  obtain ⟨last, made, evolves'⟩ := after id middle made
  exact ⟨last, made, evolves.trans evolves'⟩

theorem size_le (evolves : first.Evolves declares second) : first.size ≤ second.size := by
  refine Nat.le_of_not_lt fun shorter => ?_
  have made : first[second.size]? = some first[second.size] := Array.getElem?_eq_getElem shorter
  obtain ⟨last, made, -⟩ := evolves _ _ made
  simp at made

/-- Only what may be done in the scopes that there were matters. -/
theorem mono {wider : ScopeId → String → Bool → Prop} (evolves : first.Evolves declares second)
    (grows : ∀ id < first.size, ∀ name valued, declares id name valued → wider id name valued) :
    first.Evolves wider second := by
  intro id scope made
  obtain ⟨last, later, evolves⟩ := evolves id scope made
  exact ⟨last, later, evolves.mono (grows id (Array.getElem?_eq_some_iff.mp made).1)⟩

theorem bind {value : Option Value}
    (allowed : ∀ made, heap[scope]? = some made → declares scope name value.isSome ∨
      (made.bindings.lookup name).isSome ∧ value.isSome) :
    heap.Evolves declares (heap.bind name value scope) := by
  intro id old made
  rw [bind_getElem?, made]
  split
  next same =>
    subst same
    exact ⟨_, rfl, .bind old (allowed old made)⟩
  next => exact ⟨old, rfl, .refl old⟩

theorem push (heap : Heap) (scope : Scope) : heap.Evolves declares (heap.push scope) := by
  intro id old made
  have older := (Array.getElem?_eq_some_iff.mp made).1
  rw [Array.getElem?_push, if_neg (Nat.ne_of_lt older)]
  exact ⟨old, made, .refl old⟩

end Evolves
end Heap

/-- The scopes that a run leaves behind, however it ends. -/
def Run.heapAfter {α : Type} (run : Run α) (machine : Machine) : Heap :=
  match run machine with
  | .ok _ after | .error _ after => after.heap

/-- What a run may declare in which scope. Those that are made during the run are its own. -/
structure Licence where
  made : Nat
  allows : ScopeId → String → Bool → Prop
  free : ∀ id name valued, made ≤ id → allows id name valued

namespace Licence

variable (licence : Licence) {α β : Type}

/-- A run that keeps to the licence, once there are all the scopes that it speaks of. -/
def Covers (run : Run α) : Prop :=
  ∀ machine : Machine, licence.made ≤ machine.heap.size →
    machine.heap.Evolves licence.allows (run.heapAfter machine)

/-- Everything that a statement binds around it may be declared there. -/
def Permits (scope : ScopeId) (stmt : Stmt Place) : Prop :=
  ∀ name valued, stmt.Binds name valued → licence.allows scope name valued

variable {licence} {scope : ScopeId}

theorem permits_own (own : licence.made ≤ scope) (stmt : Stmt Place) : licence.Permits scope stmt :=
  fun name valued _ => licence.free scope name valued own

namespace Covers

variable {run : Run α} {next : α → Run β}

/-- A run that leaves all scopes alone. -/
theorem still (same : ∀ machine, run.heapAfter machine = machine.heap) : licence.Covers run := by
  intro machine _
  rw [same]
  exact .refl _

theorem pure (value : α) : licence.Covers (Pure.pure value) := still fun _ => rfl

theorem exhausted : licence.Covers (throw .exhausted : Run α) := still fun _ => rfl

theorem fail (line : Nat) (fault : RuntimeFault) : licence.Covers (Run.fail line fault : Run α) :=
  still fun _ => rfl

theorem bind (first : licence.Covers run) (goesOn : ∀ value, licence.Covers (next value)) :
    licence.Covers (run >>= next) := by
  intro machine enough
  have before := first machine enough
  unfold Run.heapAfter at before ⊢
  cases ran : run machine with
  | ok value middle =>
    rw [ran] at before
    rw [Sequencing.bind_ok ran]
    exact before.trans (goesOn value middle (Nat.le_trans enough before.size_le))
  | error stop middle =>
    rw [ran] at before
    rw [Sequencing.bind_error ran]
    exact before

/-- A check in front of what is done. -/
theorem guard {condition : Prop} [Decidable condition] (line : Nat) (fault : RuntimeFault)
    (goesOn : licence.Covers run) :
    licence.Covers (if condition then Run.fail line fault >>= fun _ : PUnit => run else run) := by
  split
  · exact (fail line fault).bind fun _ => goesOn
  · exact goesOn

theorem lift (line : Nat) (result : Except RuntimeFault α) :
    licence.Covers (Run.lift line result) := by
  cases result with
  | ok value => exact .pure value
  | error fault => exact .fail line fault

theorem get (line : Nat) (name : String) (scope : ScopeId) :
    licence.Covers (Run.get line name scope) := by
  refine still fun machine => ?_
  simp only [Run.heapAfter, Run.get]
  cases machine.heap.get name scope <;> rfl

/-- An assignment finds its binding. -/
theorem assign (line : Nat) (name : String) (value : Value) (scope : ScopeId) :
    licence.Covers (Run.assign line name value scope) := by
  intro machine _
  simp only [Run.heapAfter, Run.assign]
  cases found : machine.heap.find name scope with
  | error error => exact .refl _
  | ok binding =>
    obtain ⟨made, at', bound⟩ := Heap.find_bound found
    refine .bind fun other same => .inr ⟨?_, rfl⟩
    rw [at'] at same
    obtain rfl := Option.some.inj same
    rw [bound]
    rfl

theorem bindName {name : String} {value : Option Value}
    (allowed : licence.allows scope name value.isSome) :
    licence.Covers (Run.bind name value scope) := by
  intro machine _
  simp only [Run.heapAfter, Run.bind]
  split
  next ran =>
    split at ran <;> cases ran
    exact .bind fun _ _ => .inl allowed
  next ran =>
    split at ran <;> cases ran
    exact .refl _

/-- What runs in a new scope may declare anything there. -/
theorem entering {bindings : Bindings} {parent : ScopeId} {next : ScopeId → Run β}
    (goesOn : ∀ inner, licence.made ≤ inner → licence.Covers (next inner)) :
    licence.Covers (Run.enter bindings parent >>= next) := by
  intro machine enough
  by_cases outside : parent < machine.heap.size
  · have entered : Run.enter bindings parent machine = .ok machine.heap.size
        { machine with heap := machine.heap.push ⟨bindings, some parent⟩ } := if_pos outside
    have grown : machine.heap.Evolves licence.allows (machine.heap.push ⟨bindings, some parent⟩) :=
      .push _ _
    have inside := goesOn machine.heap.size enough
      { machine with heap := machine.heap.push ⟨bindings, some parent⟩ }
      (Nat.le_trans enough grown.size_le)
    rw [Run.heapAfter, Sequencing.bind_ok entered]
    exact grown.trans inside
  · have refused : Run.enter bindings parent machine = .error .dangling machine := if_neg outside
    rw [Run.heapAfter, Sequencing.bind_error refused]
    exact .refl _

theorem inFrame (frame : Frame) {body : Run Signal} (covers : licence.Covers body) :
    licence.Covers (Run.inFrame frame body) := by
  intro machine enough
  have inside := covers { machine with depth := machine.depth + 1 } enough
  have same : (Run.inFrame frame body).heapAfter machine =
      body.heapAfter { machine with depth := machine.depth + 1 } := by
    simp only [Run.heapAfter, Run.inFrame]
    cases body { machine with depth := machine.depth + 1 } with
    | ok signal after =>
      simp only
      cases Run.finish frame signal <;> rfl
    | error stop after => cases stop <;> rfl
  rw [same]
  exact inside

theorem mayEnter (settings : Settings) (line : Nat) :
    licence.Covers (Run.mayEnter settings line) := by
  refine still fun machine => ?_
  unfold Run.heapAfter Run.mayEnter
  cases settings.maxDepth with
  | none => rfl
  | some limit =>
    by_cases deep : limit ≤ machine.depth
    · simp only [deep, if_true]
    · simp only [deep, if_false]

theorem native (settings : Settings) (native : Native) :
    licence.Covers (Run.native settings native) := by
  cases native
  exact still fun _ => rfl

theorem declareFunction {name : String} {params : List String} {body : List (Stmt Place)}
    (allowed : licence.allows scope name true) :
    licence.Covers (Run.declareFunction name params body scope) :=
  (still fun _ => rfl : licence.Covers Run.newFunction).bind fun _ => .bindName allowed

end Covers

open Interpreter

/-- Every part of the evaluator keeps to the licence, if it covers the statements that it is given. -/
structure Governs (licence : Licence) (settings : Settings) (fuel : Nat) : Prop where
  evaluate : ∀ scope expr, licence.Covers (evaluate settings scope fuel expr)
  evaluateAll : ∀ scope exprs, licence.Covers (evaluateAll settings scope fuel exprs)
  call : ∀ callee arguments line, licence.Covers (call settings fuel callee arguments line)
  execute : ∀ scope stmt, licence.Permits scope stmt →
    licence.Covers (execute settings scope fuel stmt)
  executeAll : ∀ scope stmts, (∀ stmt ∈ stmts, licence.Permits scope stmt) →
    licence.Covers (executeAll settings scope fuel stmts)
  repeatWhile : ∀ scope condition body, licence.Permits scope body →
    licence.Covers (repeatWhile settings scope fuel condition body)

namespace Governs

variable {settings : Settings} {fuel : Nat} (ih : licence.Governs settings fuel)

theorem zero : licence.Governs settings 0 where
  evaluate _ _ := .exhausted
  evaluateAll _ _ := .exhausted
  call _ _ _ := .exhausted
  execute _ _ _ := .exhausted
  executeAll _ _ _ := .exhausted
  repeatWhile _ _ _ _ := .exhausted

include ih

theorem evaluate_succ (scope : ScopeId) (expr : Expr Place) :
    licence.Covers (Interpreter.evaluate settings scope (fuel + 1) expr) := by
  cases expr with
  | literal place value => exact .pure _
  | grouping place inner => exact ih.evaluate scope inner
  | unary place operator operand =>
    exact (ih.evaluate scope operand).bind fun value => .lift _ _
  | binary place operator left right =>
    refine (ih.evaluate scope left).bind fun first => (ih.evaluate scope right).bind fun second => ?_
    exact .lift _ _
  | logical place operator left right =>
    cases operator with
    | or | and =>
      refine (ih.evaluate scope left).bind fun first => ?_
      split
      · first | exact .pure _ | exact ih.evaluate scope right
      · first | exact .pure _ | exact ih.evaluate scope right
  | name place name => exact .get _ _ _
  | assign place name value =>
    exact (ih.evaluate scope value).bind fun value => (Covers.assign _ _ _ _).bind fun _ => .pure _
  | call place callee arguments =>
    refine (ih.evaluate scope callee).bind fun callee => ?_
    exact (ih.evaluateAll scope arguments).bind fun values => ih.call callee values place.line

theorem evaluateAll_succ (scope : ScopeId) (exprs : List (Expr Place)) :
    licence.Covers (Interpreter.evaluateAll settings scope (fuel + 1) exprs) := by
  cases exprs with
  | nil => exact .pure _
  | cons expr rest =>
    refine (ih.evaluate scope expr).bind fun value => ?_
    exact (ih.evaluateAll scope rest).bind fun values => .pure _

theorem call_succ (callee : Value) (arguments : List Value) (line : Nat) :
    licence.Covers (Interpreter.call settings (fuel + 1) callee arguments line) := by
  cases callee with
  | function closure =>
    refine .guard line _ ((Covers.mayEnter settings line).bind fun _ => ?_)
    refine .entering fun inner own => .inFrame _ (ih.executeAll inner closure.body ?_)
    exact fun stmt _ => permits_own own stmt
  | native native => exact .guard line _ (.native settings native)
  | nil | bool | number | string => exact .fail line _

theorem execute_succ (scope : ScopeId) (stmt : Stmt Place) (permits : licence.Permits scope stmt) :
    licence.Covers (Interpreter.execute settings scope (fuel + 1) stmt) := by
  cases stmt with
  | expression place expr => exact (ih.evaluate scope expr).bind fun _ => .pure _
  | print place expr =>
    refine (ih.evaluate scope expr).bind fun value => ?_
    exact (Covers.still fun _ => rfl : licence.Covers (Run.print value)).bind fun _ => .pure _
  | declare place name initial =>
    have allowed : licence.allows scope name initial.isSome :=
      permits name _ (.declares .variable)
    cases initial with
    | none => exact (Covers.bindName allowed).bind fun _ => .pure _
    | some initial =>
      refine (ih.evaluate scope initial).bind fun value => ?_
      exact (Covers.bindName allowed).bind fun _ => .pure _
  | block place body =>
    exact .entering fun inner own => ih.executeAll inner body fun stmt _ => permits_own own stmt
  | ifThen place condition body =>
    refine (ih.evaluate scope condition).bind fun value => ?_
    split
    · exact ih.execute scope body fun name valued binds => permits name valued (.ifThen binds)
    · exact .pure _
  | ifElse place condition body other =>
    refine (ih.evaluate scope condition).bind fun value => ?_
    split
    · exact ih.execute scope body fun name valued binds => permits name valued (.ifBody binds)
    · exact ih.execute scope other fun name valued binds => permits name valued (.ifOther binds)
  | whileLoop place condition body =>
    exact ih.repeatWhile scope condition body fun name valued binds =>
      permits name valued (.whileLoop binds)
  | function place name params body =>
    exact (Covers.declareFunction (permits name true (.declares .function))).bind fun _ => .pure _
  | returnValue place value =>
    cases value with
    | none => exact .pure _
    | some expr => exact (ih.evaluate scope expr).bind fun value => .pure _
  | breakLoop place | continueLoop place => exact .pure _

theorem executeAll_succ (scope : ScopeId) (stmts : List (Stmt Place))
    (permits : ∀ stmt ∈ stmts, licence.Permits scope stmt) :
    licence.Covers (Interpreter.executeAll settings scope (fuel + 1) stmts) := by
  cases stmts with
  | nil => exact .pure _
  | cons stmt rest =>
    refine (ih.execute scope stmt (permits stmt List.mem_cons_self)).bind fun signal => ?_
    cases signal with
    | normal =>
      exact ih.executeAll scope rest fun other member => permits other (List.mem_cons_of_mem _ member)
    | returning value line | jumping jump line => exact .pure _

theorem repeatWhile_succ (scope : ScopeId) (condition : Expr Place) (body : Stmt Place)
    (permits : licence.Permits scope body) :
    licence.Covers (Interpreter.repeatWhile settings scope (fuel + 1) condition body) := by
  refine (ih.evaluate scope condition).bind fun value => ?_
  split
  · refine (ih.execute scope body permits).bind fun signal => ?_
    cases signal with
    | normal => exact ih.repeatWhile scope condition body permits
    | returning value line => exact .pure _
    | jumping jump line =>
      cases jump with
      | breaking => exact .pure _
      | continuing => exact ih.repeatWhile scope condition body permits
  · exact .pure _

omit ih in
/-- The induction over the evaluator, on the budget. -/
theorem everywhere (fuel : Nat) : licence.Governs settings fuel := by
  induction fuel with
  | zero => exact zero
  | succ fuel ih =>
    constructor
    · exact ih.evaluate_succ
    · exact ih.evaluateAll_succ
    · exact ih.call_succ
    · exact ih.execute_succ
    · exact ih.executeAll_succ
    · exact ih.repeatWhile_succ

end Governs

/-- Some names may be declared in one scope of a heap. -/
def only (heap : Heap) (scope : ScopeId) (declares : String → Bool → Prop) : Licence where
  made := heap.size
  allows id name valued := heap.size ≤ id ∨ id = scope ∧ declares name valued
  free _ _ _ := .inl

theorem Covers.evolves {machine : Machine} {declares : String → Bool → Prop} {run : Run α}
    (covers : (only machine.heap scope declares).Covers run) :
    machine.heap.Evolves (fun id name valued => id = scope ∧ declares name valued)
      (run.heapAfter machine) :=
  (covers machine (Nat.le_refl _)).mono fun _ old _ _ allowed =>
    allowed.resolve_left (Nat.not_le.mpr old)

theorem permits_only {heap : Heap} {stmt : Stmt Place} (orderly : stmt.orderly)
    {declares : String → Bool → Prop}
    (declared : ∀ name valued, stmt.Declares name valued → declares name valued) :
    (only heap scope declares).Permits scope stmt :=
  fun name valued binds => .inr ⟨rfl, declared name valued (binds.declared orderly)⟩

end Licence

namespace Interpreter

/-- Declarations stay in their scope. Whatever the state, and however the run ends, an expression
and a call bind no name in any scope that there was, and a statement of a program that was parsed
binds only, in the scope that it runs in, the name that it declares itself. Statements one after
another bind what each of them declares. No name goes away, no scope gets another parent, and only
the name of a declaration without a value loses its value, in the scope of the declaration. -/
theorem declarations_stay_in_scope (settings : Settings) (fuel : Nat) (machine : Machine)
    (scope : ScopeId) :
    (∀ expr, machine.heap.Evolves (fun _ _ _ => False)
      ((evaluate settings scope fuel expr).heapAfter machine)) ∧
    (∀ callee arguments line, machine.heap.Evolves (fun _ _ _ => False)
      ((call settings fuel callee arguments line).heapAfter machine)) ∧
    ∀ tokens,
      (∀ stmt, (Parsed.ofTokens tokens).program.Contains stmt →
        machine.heap.Evolves (fun id name valued => id = scope ∧ stmt.Declares name valued)
          ((execute settings scope fuel stmt).heapAfter machine)) ∧
      ∀ stmts, (∀ stmt ∈ stmts, (Parsed.ofTokens tokens).program.Contains stmt) →
        machine.heap.Evolves
          (fun id name valued => id = scope ∧ ∃ stmt ∈ stmts, stmt.Declares name valued)
          ((executeAll settings scope fuel stmts).heapAfter machine) := by
  have governs (declares : String → Bool → Prop) :
      (Licence.only machine.heap scope declares).Governs settings fuel := .everywhere fuel
  refine ⟨fun expr => ?_, fun callee arguments line => ?_, fun tokens => ⟨?_, ?_⟩⟩
  · refine Heap.Evolves.mono ((governs fun _ _ => False).evaluate scope expr).evolves ?_
    exact fun _ _ _ _ => And.right
  · refine Heap.Evolves.mono ((governs fun _ _ => False).call callee arguments line).evolves ?_
    exact fun _ _ _ _ => And.right
  · intro stmt contained
    have orderly := contained.orderly (Parsed.orderly tokens)
    refine ((governs stmt.Declares).execute scope stmt ?_).evolves
    exact Licence.permits_only orderly fun _ _ => id
  · intro stmts contained
    refine ((governs fun name valued => ∃ stmt ∈ stmts, stmt.Declares name valued).executeAll scope
      stmts fun stmt member => ?_).evolves
    have orderly := (contained stmt member).orderly (Parsed.orderly tokens)
    exact Licence.permits_only orderly fun _ _ declares => ⟨stmt, member, declares⟩

/-- What a block declares before an error in it does not get out. -/
theorem declarations_stay_in_scope_failing_block :
    let tokens := (Scan.ofSource "if (true) \x7b var a = 1; fun f() \x7b \x7d print b; \x7d").tokens
    let start := Session.start ⟨none, Session.steadyClock⟩
    ∃ stmt, (Parsed.ofTokens tokens).program.Contains stmt ∧ stmt.isDeclaration = false ∧
      let after := (execute start.settings start.globals 20 stmt).heapAfter start.machine
      after.size = 2 ∧ start.machine.heap.Evolves
        (fun id name valued => id = start.globals ∧ stmt.Declares name valued) after := by
  intro tokens start
  have single : (Parsed.ofTokens tokens).program.map (fun stmt => (stmt.isDeclaration,
      ((execute start.settings start.globals 20 stmt).heapAfter start.machine).size)) =
        [(false, 2)] := by decide +kernel
  obtain ⟨stmt, program, same⟩ := List.map_eq_singleton_iff.mp single
  obtain ⟨embedded, size⟩ := Prod.mk.inj same
  have contained : (Parsed.ofTokens tokens).program.Contains stmt := by
    refine .outside ?_
    rw [program]
    exact List.mem_append_left _ stmt.mem_parts
  have stays := declarations_stay_in_scope start.settings 20 start.machine start.globals
  exact ⟨stmt, contained, embedded, size, (stays.2.2 tokens).1 stmt contained⟩

end Interpreter
end Lox
