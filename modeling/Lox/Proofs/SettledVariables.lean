import Lox.Proofs.PlannedScopes

/-! Variables are found where the program says, as far as it says so. What a run finds it finds as far
outwards as the layers around the place, or else a name there was left open. -/

namespace Lox

/-- The table has the place, and the right number of links for it unless that is left open. -/
def Finding.Agrees (table : List Occurrence) (finding : Finding) : Prop :=
  ∃ occurrence ∈ table, occurrence.place = finding.place ∧
    ∀ links, occurrence.links = some links → finding.links = links

/-- A value is no function, or a planned one. -/
abbrev Value.Planned (table : List Occurrence) (plan : Plan) (heap : Heap) (value : Value) : Prop :=
  value.Meets (Closure.Planned table plan heap)

def Signal.Planned (table : List Occurrence) (plan : Plan) (heap : Heap) : Signal → Prop
  | .returning value _ => value.Planned table plan heap
  | .normal | .jumping _ _ => True

/-- How plan and heap go on together. -/
structure Plan.Goes (table : List Occurrence) (plan : Plan) (heap : Heap) (plan' : Plan)
    (heap' : Heap) : Prop where
  grown : heap.size ≤ heap'.size
  extended : plan'.Extends plan heap
  planned : heap'.Planned table plan'

namespace Plan.Goes

variable {table : List Occurrence} {plan plan' plan'' : Plan} {heap heap' heap'' : Heap}

theorem refl (planned : heap.Planned table plan) : plan.Goes table heap plan heap :=
  ⟨Nat.le_refl _, fun _ _ => rfl, planned⟩

theorem trans (first : plan.Goes table heap plan' heap')
    (later : plan'.Goes table heap' plan'' heap'') : plan.Goes table heap plan'' heap'' := by
  refine ⟨Nat.le_trans first.grown later.grown, fun id old => ?_, later.planned⟩
  exact (later.extended id (Nat.lt_of_lt_of_le old first.grown)).trans (first.extended id old)

end Plan.Goes

/-- What a run finds agrees with the table; and if it comes to its end, the scopes are as planned, and
what it gives is as described. -/
def Tracks {α : Type} (table : List Occurrence) (plan : Plan) (machine : Machine)
    (found : Findings) (run : Run α) (post : Plan → Heap → α → Prop) : Prop :=
  (∀ finding ∈ found machine, finding.Agrees table) ∧
    ∀ value after, run machine = .ok value after →
      ∃ plan', plan.Goes table machine.heap plan' after.heap ∧ post plan' after.heap value

namespace Tracks

variable {α β : Type} {table : List Occurrence} {plan : Plan} {machine : Machine}
  {found : Findings} {run : Run α} {next : α → Run β} {post : Plan → Heap → α → Prop}
  {final : Plan → Heap → β → Prop} {scope : ScopeId} {layers : List Layer}

/-- A run that finds nothing and changes no scope. -/
theorem still (planned : machine.heap.Planned table plan)
    (same : ∀ value after, run machine = .ok value after →
      after.heap = machine.heap ∧ post plan machine.heap value) :
    Tracks table plan machine .nothing run post := by
  refine ⟨nofun, fun value after ran => ⟨plan, ?_⟩⟩
  obtain ⟨heap, holds⟩ := same value after ran
  rw [heap]
  exact ⟨.refl planned, holds⟩

theorem imp {wider : Plan → Heap → α → Prop} (tracks : Tracks table plan machine found run post)
    (implies : ∀ {plan heap value}, post plan heap value → wider plan heap value) :
    Tracks table plan machine found run wider := by
  refine ⟨tracks.1, fun value after ran => ?_⟩
  obtain ⟨plan', goes, holds⟩ := tracks.2 value after ran
  exact ⟨plan', goes, implies holds⟩

theorem pure (planned : machine.heap.Planned table plan) {value : α}
    (holds : post plan machine.heap value) :
    Tracks table plan machine .nothing (Pure.pure value) post := by
  refine still planned fun given after ran => ?_
  obtain ⟨rfl, rfl⟩ := EStateM.Result.ok.inj ran
  exact ⟨rfl, holds⟩

theorem stops (never : ∀ value after, run machine ≠ .ok value after) :
    Tracks table plan machine .nothing run post :=
  ⟨nofun, fun value after ran => (never value after ran).elim⟩

theorem exhausted : Tracks table plan machine .nothing (throw .exhausted : Run α) post :=
  stops nofun

theorem fail (line : Nat) (fault : RuntimeFault) :
    Tracks table plan machine .nothing (Run.fail line fault : Run α) post :=
  stops nofun

theorem bind {nextFound : α → Findings} (first : Tracks table plan machine found run post)
    (goesOn : ∀ value after plan', run machine = .ok value after →
      plan.Goes table machine.heap plan' after.heap → post plan' after.heap value →
        Tracks table plan' after (nextFound value) (next value) final) :
    Tracks table plan machine (found.andThen run nextFound) (run >>= next) final := by
  obtain ⟨agree, keeps⟩ := first
  constructor
  · intro finding member
    rcases List.mem_append.mp member with before | behind
    · exact agree finding before
    · split at behind
      next value after ran =>
        obtain ⟨plan', goes, holds⟩ := keeps value after ran
        exact (goesOn value after plan' ran goes holds).1 finding behind
      next => cases behind
  · intro value after ran
    cases first : run machine with
    | error stop middle =>
      rw [Sequencing.bind_error first] at ran
      cases ran
    | ok given middle =>
      rw [Sequencing.bind_ok first] at ran
      obtain ⟨plan', goes, holds⟩ := keeps given middle first
      obtain ⟨last, goes', holds'⟩ := (goesOn given middle plan' first goes holds).2 value after ran
      exact ⟨last, goes.trans goes', holds'⟩

/-- What comes behind finds nothing more. -/
theorem last (first : Tracks table plan machine found run post)
    (goesOn : ∀ value after plan', run machine = .ok value after →
      plan.Goes table machine.heap plan' after.heap → post plan' after.heap value →
        Tracks table plan' after .nothing (next value) final) :
    Tracks table plan machine found (run >>= next) final := by
  have both : Tracks table plan machine (found.andThen run fun _ => .nothing) (run >>= next) final :=
    first.bind goesOn
  exact ⟨first.1, both.2⟩

theorem lift (planned : machine.heap.Planned table plan) (line : Nat)
    {result : Except RuntimeFault Value}
    (plain : ∀ value, result = .ok value → value.Planned table plan machine.heap) :
    Tracks table plan machine .nothing (Run.lift line result) (Value.Planned table) := by
  cases result with
  | ok value => exact pure planned (plain value rfl)
  | error fault => exact fail line fault

/-- What is found agrees with the table, where the layers around the place fit. -/
theorem here_agrees (planned : machine.heap.Planned table plan)
    (fits : machine.heap.Fits plan scope layers) {place : Place} {name : String}
    (named : ⟨place, Layer.links name layers⟩ ∈ table) :
    ∀ finding ∈ Findings.here place name scope machine, finding.Agrees table := by
  intro finding member
  obtain ⟨near, found, rfl⟩ := List.mem_map.mp member
  refine ⟨_, named, rfl, fun links said => ?_⟩
  exact fits.links planned (Option.mem_toList.mp found) said

theorem get (planned : machine.heap.Planned table plan) (fits : machine.heap.Fits plan scope layers)
    {place : Place} {name : String} (named : ⟨place, Layer.links name layers⟩ ∈ table) :
    Tracks table plan machine (.here place name scope) (Run.get place.line name scope)
      (Value.Planned table) := by
  refine ⟨here_agrees planned fits named, fun value after ran => ?_⟩
  unfold Run.get Heap.get at ran
  cases found : machine.heap.find name scope with
  | error error =>
    rw [found] at ran
    cases ran
  | ok binding =>
    obtain ⟨owner, own⟩ := binding
    rw [found] at ran
    cases own with
    | none => cases ran
    | some own =>
      cases ran
      exact ⟨plan, .refl planned, planned.find found⟩

theorem assign (planned : machine.heap.Planned table plan)
    (fits : machine.heap.Fits plan scope layers) {place : Place} {name : String}
    (named : ⟨place, Layer.links name layers⟩ ∈ table) {value : Value}
    (held : value.Planned table plan machine.heap) :
    Tracks table plan machine (.here place name scope) (Run.assign place.line name value scope)
      fun plan heap _ => value.Planned table plan heap := by
  refine ⟨here_agrees planned fits named, fun _ after ran => ?_⟩
  unfold Run.assign at ran
  cases found : machine.heap.find name scope with
  | error error =>
    rw [found] at ran
    cases ran
  | ok binding =>
    obtain ⟨owner, own⟩ := binding
    rw [found] at ran
    cases ran
    obtain ⟨made, at', bound⟩ := Heap.find_bound found
    have evolves : machine.heap.Evolves (fun _ _ _ => True) (machine.heap.define name value owner) :=
      .bind fun _ _ => .inl trivial
    have later : value.Planned table plan (machine.heap.define name value owner) :=
      held.mono fun _ was => was.later evolves fun _ _ => rfl
    refine ⟨plan, ⟨evolves.size_le, fun _ _ => rfl, planned.bind ?_ ?_⟩, later⟩
    · intro other same inner
      obtain rfl := Option.some.inj (at'.symm.trans same)
      exact planned.named owner made at' inner name (by rw [bound]; rfl)
    · rintro _ ⟨⟩
      exact later

/-- A name is bound in the innermost scope that was planned for it. -/
theorem bindName (planned : machine.heap.Planned table plan)
    (fits : machine.heap.Fits plan scope layers) {name : String} {value : Option Value}
    (named : layers = [] ∨ name ∈ plan scope)
    (held : ∀ own, value = some own →
      own.Planned table plan (machine.heap.bind name value scope)) :
    Tracks table plan machine .nothing (Run.bind name value scope) fun _ heap _ =>
      ∀ made, heap[scope]? = some made → (made.bindings.lookup name).isSome := by
  refine ⟨nofun, fun _ after ran => ?_⟩
  unfold Run.bind at ran
  split at ran <;> cases ran
  have evolves : machine.heap.Evolves (fun _ _ _ => True) (machine.heap.bind name value scope) :=
    .bind fun _ _ => .inl trivial
  refine ⟨plan, ⟨evolves.size_le, fun _ _ => rfl, planned.bind ?_ held⟩, ?_⟩
  · intro made at' inner
    refine named.resolve_left ?_
    rintro rfl
    obtain ⟨scope', same, last⟩ := fits
    obtain rfl := Option.some.inj (same.symm.trans at')
    exact inner last
  · intro made at'
    rw [Heap.bind_getElem?, if_pos rfl] at at'
    obtain ⟨old, -, rfl⟩ := Option.map_eq_some_iff.mp at'
    rw [Bindings.lookup_set, if_pos rfl]
    rfl

/-- A new scope is made for what some layers are around. -/
theorem enter (planned : machine.heap.Planned table plan)
    (fits : machine.heap.Fits plan scope layers) {bindings : Bindings} {bound : List String}
    (ahead : List String) (same : ∀ name, (bindings.lookup name).isSome ↔ name ∈ bound)
    (held : bindings.Meets (Closure.Planned table plan machine.heap)) :
    Tracks table plan machine .nothing (Run.enter bindings scope) fun plan heap inner =>
      heap.Fits plan inner (⟨bound, ahead, false⟩ :: layers) ∧ ∀ name ∈ ahead, name ∈ plan inner := by
  refine ⟨nofun, fun inner after ran => ?_⟩
  unfold Run.enter at ran
  split at ran <;> cases ran
  refine ⟨Function.update plan machine.heap.size (bound ++ ahead), ⟨?_, ?_, ?_⟩, ?_, ?_⟩
  · exact Array.size_push _ ▸ Nat.le_succ _
  · exact fun other old => Function.update_of_ne (Nat.ne_of_lt old) _ _
  · exact planned.push (fun name there => List.mem_append_left _ ((same name).mp there)) held scope
  · exact fits.enter same fun name member => List.mem_append.mp member
  · intro name member
    rw [Function.update_self]
    exact List.mem_append_right _ member

theorem mayEnter (planned : machine.heap.Planned table plan) (settings : Settings) (line : Nat) :
    Tracks table plan machine .nothing (Run.mayEnter settings line) fun plan' heap _ =>
      plan' = plan ∧ heap = machine.heap := by
  refine still planned fun _ after ran => ?_
  unfold Run.mayEnter at ran
  split at ran
  next =>
    split at ran <;> cases ran
    exact ⟨rfl, rfl, rfl⟩
  next =>
    cases ran
    exact ⟨rfl, rfl, rfl⟩

theorem native (planned : machine.heap.Planned table plan) (settings : Settings) (native : Native) :
    Tracks table plan machine .nothing (Run.native settings native) (Value.Planned table) := by
  refine still planned fun value after ran => ?_
  cases native
  cases ran
  exact ⟨rfl, trivial⟩

theorem print (planned : machine.heap.Planned table plan) (value : Value) :
    Tracks table plan machine .nothing (Run.print value) fun _ _ _ => True := by
  refine still planned fun _ after ran => ?_
  cases ran
  exact ⟨rfl, trivial⟩

theorem newFunction (planned : machine.heap.Planned table plan) :
    Tracks table plan machine .nothing Run.newFunction fun plan' heap _ =>
      plan' = plan ∧ heap = machine.heap := by
  refine still planned fun _ after ran => ?_
  cases ran
  exact ⟨rfl, rfl, rfl⟩

/-- A value that was planned is still so where a name is bound to it. -/
theorem define (planned : machine.heap.Planned table plan)
    (fits : machine.heap.Fits plan scope layers) {name : String} {value : Value}
    (named : layers = [] ∨ name ∈ plan scope) (held : value.Planned table plan machine.heap) :
    Tracks table plan machine .nothing (Run.bind name (some value) scope) fun _ heap _ =>
      ∀ made, heap[scope]? = some made → (made.bindings.lookup name).isSome := by
  have evolves : machine.heap.Evolves (fun _ _ _ => True)
      (machine.heap.bind name (some value) scope) :=
    .bind fun _ _ => .inl trivial
  refine bindName planned fits named fun own same => ?_
  obtain rfl := Option.some.inj same
  exact held.mono fun _ was => was.later evolves fun _ _ => rfl

/-- A new function is planned where its own name is bound already, since it finds itself from within. -/
theorem declareFunction (planned : machine.heap.Planned table plan)
    (fits : machine.heap.Fits plan scope layers) {name : String} {params : List String}
    {body : List (Stmt Place)} (named : layers = [] ∨ name ∈ plan scope)
    (orderly : Stmt.allOrderly body)
    (within : Stmt.occurrencesIn params ((Layer.declare name layers).map Layer.defer) body ⊆ table) :
    Tracks table plan machine .nothing (Run.declareFunction name params body scope) fun _ heap _ =>
      ∀ made, heap[scope]? = some made → (made.bindings.lookup name).isSome := by
  refine (newFunction planned).last fun id after plan' _ goes same => ?_
  obtain ⟨rfl, same⟩ := same
  refine bindName goes.planned (same ▸ fits) named fun own made => ?_
  obtain rfl := Option.some.inj made
  exact ⟨Layer.declare name layers, (same ▸ fits).declare name _, orderly, within⟩

/-- A statement that goes on behind binding its name has bound what it declares. -/
theorem declares {run : Run Unit} {stmt : Stmt Place} {name : String}
    (own : stmt.declared = some name)
    (binds : Tracks table plan machine found run fun _ heap _ =>
      ∀ made, heap[scope]? = some made → (made.bindings.lookup name).isSome) :
    Tracks table plan machine found (run >>= fun _ => Pure.pure Signal.normal)
      fun plan heap signal => signal.Planned table plan heap ∧ (signal = .normal → ∀ name,
        stmt.declared = some name → ∀ made, heap[scope]? = some made →
          (made.bindings.lookup name).isSome) := by
  refine binds.last fun _ after plan' _ goes bound => .pure goes.planned ⟨trivial, ?_⟩
  rintro - other declared
  obtain rfl := Option.some.inj (own.symm.trans declared)
  exact bound

theorem inFrame {body : Run Signal} (frame : Frame)
    (inside : Tracks table plan { machine with depth := machine.depth + 1 } found body
      (Signal.Planned table)) :
    Tracks table plan machine (fun machine => found { machine with depth := machine.depth + 1 })
      (Run.inFrame frame body) (Value.Planned table) := by
  refine ⟨inside.1, fun value after ran => ?_⟩
  unfold Run.inFrame at ran
  cases done : body { machine with depth := machine.depth + 1 } with
  | error stop middle =>
    rw [done] at ran
    cases stop <;> cases ran
  | ok signal middle =>
    rw [done] at ran
    obtain ⟨plan', goes, held⟩ := inside.2 signal middle done
    cases signal with
    | normal =>
      cases ran
      exact ⟨plan', ⟨goes.grown, goes.extended, goes.planned⟩, trivial⟩
    | returning value line =>
      cases ran
      exact ⟨plan', ⟨goes.grown, goes.extended, goes.planned⟩, held⟩
    | jumping => cases ran

end Tracks

section Evolution

variable {settings : Settings} {fuel : Nat} {machine after : Machine} {scope : ScopeId}

theorem Licence.Covers.evolves_ok {α : Type} {declares : String → Bool → Prop} {run : Run α}
    {value : α} (covers : (Licence.only machine.heap scope declares).Covers run)
    (ran : run machine = .ok value after) :
    machine.heap.Evolves (fun id name valued => id = scope ∧ declares name valued) after.heap := by
  have evolves := covers.evolves
  rwa [Run.heapAfter, ran] at evolves

theorem Interpreter.evaluate_still {expr : Expr Place} {value : Value}
    (ran : evaluate settings scope fuel expr machine = .ok value after) :
    machine.heap.Evolves (fun _ _ _ => False) after.heap := by
  have governs : (Licence.only machine.heap scope fun _ _ => False).Governs settings fuel :=
    .everywhere fuel
  exact ((governs.evaluate scope expr).evolves_ok ran).mono fun _ _ _ _ => And.right

theorem Interpreter.evaluateAll_still {exprs : List (Expr Place)} {values : List Value}
    (ran : evaluateAll settings scope fuel exprs machine = .ok values after) :
    machine.heap.Evolves (fun _ _ _ => False) after.heap := by
  have governs : (Licence.only machine.heap scope fun _ _ => False).Governs settings fuel :=
    .everywhere fuel
  exact ((governs.evaluateAll scope exprs).evolves_ok ran).mono fun _ _ _ _ => And.right

theorem Stmt.Declares.declared {stmt : Stmt Place} {name : String} {valued : Bool}
    (declares : stmt.Declares name valued) : stmt.declared = some name := by
  cases declares <;> rfl

/-- A statement adds at most the name that it declares, to the scope it runs in. -/
theorem Interpreter.execute_evolves {stmt : Stmt Place} {signal : Signal} (orderly : stmt.orderly)
    (ran : execute settings scope fuel stmt machine = .ok signal after) :
    machine.heap.Evolves (fun id name _ => id = scope ∧ stmt.declared = some name) after.heap := by
  have governs : (Licence.only machine.heap scope fun name _ => stmt.declared = some name).Governs
      settings fuel := .everywhere fuel
  refine (governs.execute scope stmt (Licence.permits_only orderly ?_)).evolves_ok ran
  exact fun name valued declares => declares.declared

theorem Stmt.Embeds.declared {stmt : Stmt Place} (embeds : stmt.Embeds) : stmt.declared = none := by
  cases stmt with
  | declare | function => cases embeds.1
  | _ => rfl

theorem Interpreter.execute_still {stmt : Stmt Place} {signal : Signal} (embeds : stmt.Embeds)
    (ran : execute settings scope fuel stmt machine = .ok signal after) :
    machine.heap.Evolves (fun _ _ _ => False) after.heap := by
  refine (execute_evolves embeds.2 ran).mono fun _ _ name _ declared => ?_
  rw [embeds.declared] at declared
  cases declared.2

end Evolution

/-- A call binds its parameters, if there are arguments for all of them. -/
theorem Bindings.ofArguments_bound {params : List String} {arguments : List Value}
    (same : params.length = arguments.length) (name : String) :
    (((params.zip arguments).foldl
      (fun bindings (name, value) => Bindings.set name (some value) bindings) []).lookup name).isSome ↔
        name ∈ params := by
  have filled : ∀ (pairs : List (String × Value)) (bindings : Bindings),
      ((pairs.foldl (fun bindings (name, value) => Bindings.set name (some value) bindings)
        bindings).lookup name).isSome ↔
          name ∈ pairs.map Prod.fst ∨ (bindings.lookup name).isSome := by
    intro pairs
    induction pairs with
    | nil => simp
    | cons pair pairs ih =>
      intro bindings
      rw [List.foldl_cons, ih, lookup_set, List.map_cons, List.mem_cons]
      split
      next own => simp [own]
      next other => simp [other]
  rw [filled, List.map_fst_zip (Nat.le_of_eq same)]
  simp

open Interpreter

variable {table : List Occurrence} {settings : Settings} {fuel : Nat}

/-- Every part of the evaluator goes by the table, where the layers around it fit. -/
structure Follows (table : List Occurrence) (settings : Settings) (fuel : Nat) : Prop where
  evaluate : ∀ {plan machine scope layers} expr, machine.heap.Planned table plan →
    machine.heap.Fits plan scope layers → expr.occurrences layers ⊆ table →
      Tracks table plan machine (.ofExpr settings scope fuel expr)
        (evaluate settings scope fuel expr) (Value.Planned table)
  evaluateAll : ∀ {plan machine scope layers} exprs, machine.heap.Planned table plan →
    machine.heap.Fits plan scope layers → Expr.occurrencesAll layers exprs ⊆ table →
      Tracks table plan machine (.ofExprs settings scope fuel exprs)
        (evaluateAll settings scope fuel exprs) fun plan heap values =>
          ∀ value ∈ values, value.Planned table plan heap
  call : ∀ {plan machine callee arguments} line, machine.heap.Planned table plan →
    callee.Planned table plan machine.heap →
      (∀ value ∈ arguments, value.Planned table plan machine.heap) →
        Tracks table plan machine (.ofCall settings fuel callee arguments line)
          (call settings fuel callee arguments line) (Value.Planned table)
  execute : ∀ {plan machine scope layers} stmt, machine.heap.Planned table plan →
    machine.heap.Fits plan scope layers → stmt.orderly →
      (∀ name, stmt.declared = some name → layers = [] ∨ name ∈ plan scope) →
        stmt.occurrences layers ⊆ table →
          Tracks table plan machine (.ofStmt settings scope fuel stmt)
            (execute settings scope fuel stmt) fun plan heap signal =>
              signal.Planned table plan heap ∧ (signal = .normal → ∀ name,
                stmt.declared = some name → ∀ made, heap[scope]? = some made →
                  (made.bindings.lookup name).isSome)
  executeAll : ∀ {plan machine scope bound outer} stmts, machine.heap.Planned table plan →
    machine.heap.Fits plan scope (⟨bound, Stmt.declaredAll stmts, false⟩ :: outer) →
      Stmt.allOrderly stmts → (∀ name ∈ Stmt.declaredAll stmts, name ∈ plan scope) →
        Stmt.occurrencesIn bound outer stmts ⊆ table →
          Tracks table plan machine (.ofStmts settings scope fuel stmts)
            (executeAll settings scope fuel stmts) (Signal.Planned table)
  repeatWhile : ∀ {plan machine scope layers} condition body, machine.heap.Planned table plan →
    machine.heap.Fits plan scope layers → body.Embeds → condition.occurrences layers ⊆ table →
      body.occurrences layers ⊆ table →
        Tracks table plan machine (.ofLoop settings scope fuel condition body)
          (repeatWhile settings scope fuel condition body) (Signal.Planned table)

namespace Follows

theorem zero : Follows table settings 0 where
  evaluate _ _ _ _ := .exhausted
  evaluateAll _ _ _ _ := .exhausted
  call _ _ _ _ := .exhausted
  execute _ _ _ _ _ _ := .exhausted
  executeAll _ _ _ _ _ _ := .exhausted
  repeatWhile _ _ _ _ _ _ _ := .exhausted

variable (ih : Follows table settings fuel) {plan : Plan} {machine : Machine} {scope : ScopeId}
  {layers : List Layer} (planned : machine.heap.Planned table plan)
include ih planned

theorem evaluate_succ (fits : machine.heap.Fits plan scope layers) (expr : Expr Place)
    (named : expr.occurrences layers ⊆ table) :
    Tracks table plan machine (.ofExpr settings scope (fuel + 1) expr)
      (Interpreter.evaluate settings scope (fuel + 1) expr) (Value.Planned table) := by
  cases expr with
  | literal place value =>
    refine .pure planned ?_
    cases value <;> trivial
  | grouping place inner => exact ih.evaluate inner planned fits named
  | unary place operator operand =>
    refine (ih.evaluate operand planned fits named).last fun value after plan' _ goes _ => ?_
    exact .lift goes.planned _ fun _ applied => UnaryOperator.apply_meets applied
  | binary place operator left right =>
    obtain ⟨inLeft, inRight⟩ := List.append_subset.mp named
    refine (ih.evaluate left planned fits inLeft).bind fun first after plan' ran goes _ => ?_
    have fits := fits.steady (evaluate_still ran) goes.extended
    refine (ih.evaluate right goes.planned fits inRight).last fun second after plan' _ goes _ => ?_
    exact .lift goes.planned _ fun _ applied => BinaryOperator.apply_meets applied
  | logical place operator left right =>
    obtain ⟨inLeft, inRight⟩ := List.append_subset.mp named
    cases operator with
    | or =>
      refine (ih.evaluate left planned fits inLeft).bind fun first after plan' ran goes held => ?_
      have fits := fits.steady (evaluate_still ran) goes.extended
      split
      · exact .pure goes.planned held
      · exact ih.evaluate right goes.planned fits inRight
    | and =>
      refine (ih.evaluate left planned fits inLeft).bind fun first after plan' ran goes held => ?_
      have fits := fits.steady (evaluate_still ran) goes.extended
      split
      · exact ih.evaluate right goes.planned fits inRight
      · exact .pure goes.planned held
  | name place name => exact .get planned fits (named List.mem_cons_self)
  | assign place name value =>
    obtain ⟨here, within⟩ := List.cons_subset.mp named
    refine (ih.evaluate value planned fits within).bind fun value after plan' ran goes held => ?_
    have fits := fits.steady (evaluate_still ran) goes.extended
    refine (Tracks.assign goes.planned fits here held).last fun _ after plan' _ goes held => ?_
    exact .pure goes.planned held
  | call place callee arguments =>
    obtain ⟨inCallee, inArguments⟩ := List.append_subset.mp named
    refine (ih.evaluate callee planned fits inCallee).bind fun callee after plan' ran goes held => ?_
    have fits := fits.steady (evaluate_still ran) goes.extended
    refine (ih.evaluateAll arguments goes.planned fits inArguments).bind ?_
    intro values last plan'' ran goes held'
    refine ih.call place.line goes.planned (held.mono fun _ was => ?_) held'
    exact was.later (evaluateAll_still ran) goes.extended

theorem evaluateAll_succ (fits : machine.heap.Fits plan scope layers) (exprs : List (Expr Place))
    (named : Expr.occurrencesAll layers exprs ⊆ table) :
    Tracks table plan machine (.ofExprs settings scope (fuel + 1) exprs)
      (Interpreter.evaluateAll settings scope (fuel + 1) exprs) fun plan heap values =>
        ∀ value ∈ values, value.Planned table plan heap := by
  cases exprs with
  | nil => exact .pure planned nofun
  | cons expr rest =>
    obtain ⟨first, later⟩ := List.append_subset.mp named
    refine (ih.evaluate expr planned fits first).bind fun value after plan' ran goes held => ?_
    have fits := fits.steady (evaluate_still ran) goes.extended
    refine (ih.evaluateAll rest goes.planned fits later).last fun values last plan' ran' goes' all => ?_
    refine .pure goes'.planned fun other member => ?_
    rcases List.mem_cons.mp member with rfl | member
    · exact held.mono fun _ was => was.later (evaluateAll_still ran') goes'.extended
    · exact all other member

theorem call_succ (line : Nat) {callee : Value} {arguments : List Value}
    (held : callee.Planned table plan machine.heap)
    (held' : ∀ value ∈ arguments, value.Planned table plan machine.heap) :
    Tracks table plan machine (.ofCall settings (fuel + 1) callee arguments line)
      (Interpreter.call settings (fuel + 1) callee arguments line) (Value.Planned table) := by
  cases callee with
  | nil | bool | number | string => exact .fail line _
  | native known =>
    simp only [Interpreter.call]
    by_cases wrong : known.arity ≠ arguments.length
    · rw [if_pos wrong]
      exact .fail line _
    · rw [if_neg wrong]
      exact .native planned settings known
  | function closure =>
    simp only [Interpreter.call, Findings.ofCall]
    by_cases wrong : closure.arity ≠ arguments.length
    · rw [if_pos wrong, if_pos wrong]
      exact .fail line _
    rw [if_neg wrong, if_neg wrong]
    obtain ⟨layers, fits, orderly, named⟩ := held
    refine (Tracks.mayEnter planned settings line).bind fun _ after plan' _ goes same => ?_
    obtain ⟨rfl, same⟩ := same
    rw [← same] at fits held'
    -- The parameters are bound when the body begins, all that it declares comes in later.
    have bound := Bindings.ofArguments_bound (not_not.mp wrong)
    have stored := Bindings.Meets.ofArguments closure.params held'
    have entering := Tracks.enter goes.planned fits (Stmt.declaredAll closure.body) bound stored
    refine entering.bind fun inner after plan' _ goes entered => ?_
    obtain ⟨fits, all⟩ := entered
    exact .inFrame _ (ih.executeAll closure.body goes.planned fits orderly all named)

/-- A branch or the body of a loop declares nothing. -/
theorem embedded (fits : machine.heap.Fits plan scope layers) {stmt : Stmt Place}
    (embeds : stmt.Embeds) (named : stmt.occurrences layers ⊆ table) :
    Tracks table plan machine (.ofStmt settings scope fuel stmt)
      (Interpreter.execute settings scope fuel stmt) (Signal.Planned table) := by
  refine (ih.execute stmt planned fits embeds.2 (fun name same => ?_) named).imp And.left
  rw [embeds.declared] at same
  cases same

theorem execute_succ (fits : machine.heap.Fits plan scope layers) (stmt : Stmt Place)
    (orderly : stmt.orderly)
    (own : ∀ name, stmt.declared = some name → layers = [] ∨ name ∈ plan scope)
    (named : stmt.occurrences layers ⊆ table) :
    Tracks table plan machine (.ofStmt settings scope (fuel + 1) stmt)
      (Interpreter.execute settings scope (fuel + 1) stmt) fun plan heap signal =>
        signal.Planned table plan heap ∧ (signal = .normal → ∀ name, stmt.declared = some name →
          ∀ made, heap[scope]? = some made → (made.bindings.lookup name).isSome) := by
  cases stmt with
  | expression place expr =>
    refine (ih.evaluate expr planned fits named).last fun value after plan' _ goes _ => ?_
    exact .pure goes.planned ⟨trivial, nofun⟩
  | print place expr =>
    refine (ih.evaluate expr planned fits named).last fun value after plan' _ goes _ => ?_
    exact (Tracks.print goes.planned value).last fun _ last plan'' _ goes _ =>
      .pure goes.planned ⟨trivial, nofun⟩
  | declare place name initial =>
    cases initial with
    | none =>
      have unset : Tracks table plan machine .nothing (Run.bind name none scope) _ :=
        .bindName planned fits (own name rfl) nofun
      exact unset.declares rfl
    | some initial =>
      refine (ih.evaluate initial planned fits named).last fun value after plan' ran goes held => ?_
      -- The initializer runs before the name is there, and brings in no name itself.
      have own := own name rfl
      rw [← goes.extended scope fits.made] at own
      have fits := fits.steady (evaluate_still ran) goes.extended
      exact (Tracks.define goes.planned fits own held).declares rfl
  | block place body =>
    have none : ∀ name, ((([] : Bindings).lookup name).isSome ↔ name ∈ ([] : List String)) := by simp
    have entering := Tracks.enter planned fits (Stmt.declaredAll body) none nofun
    refine entering.bind fun inner after plan' _ goes entered => ?_
    obtain ⟨fits, all⟩ := entered
    exact (ih.executeAll body goes.planned fits orderly all named).imp fun held => ⟨held, nofun⟩
  | ifThen place condition body =>
    obtain ⟨inCondition, inBody⟩ := List.append_subset.mp named
    have embeds := Stmt.embeds_iff.mp orderly
    refine (ih.evaluate condition planned fits inCondition).bind fun value after plan' ran goes _ => ?_
    have fits := fits.steady (evaluate_still ran) goes.extended
    split
    · exact (ih.embedded goes.planned fits embeds inBody).imp fun held => ⟨held, nofun⟩
    · exact .pure goes.planned ⟨trivial, nofun⟩
  | ifElse place condition body other =>
    obtain ⟨inCondition, inBranches⟩ := List.append_subset.mp named
    obtain ⟨inBody, inOther⟩ := List.append_subset.mp inBranches
    obtain ⟨first, second⟩ := Bool.and_eq_true_iff.mp orderly
    refine (ih.evaluate condition planned fits inCondition).bind fun value after plan' ran goes _ => ?_
    have fits := fits.steady (evaluate_still ran) goes.extended
    split
    · have embeds := Stmt.embeds_iff.mp first
      exact (ih.embedded goes.planned fits embeds inBody).imp fun held => ⟨held, nofun⟩
    · have embeds := Stmt.embeds_iff.mp second
      exact (ih.embedded goes.planned fits embeds inOther).imp fun held => ⟨held, nofun⟩
  | whileLoop place condition body =>
    obtain ⟨inCondition, inBody⟩ := List.append_subset.mp named
    have embeds := Stmt.embeds_iff.mp orderly
    refine (ih.repeatWhile condition body planned fits embeds inCondition inBody).imp fun held => ?_
    exact ⟨held, nofun⟩
  | function place name params body =>
    exact (Tracks.declareFunction planned fits (own name rfl) orderly named).declares rfl
  | returnValue place value =>
    cases value with
    | none => exact .pure planned ⟨trivial, nofun⟩
    | some expr =>
      refine (ih.evaluate expr planned fits named).last fun value after plan' _ goes held => ?_
      exact .pure goes.planned ⟨held, nofun⟩
  | breakLoop place | continueLoop place => exact .pure planned ⟨trivial, nofun⟩

theorem executeAll_succ {bound : List String} {outer : List Layer} (stmts : List (Stmt Place))
    (fits : machine.heap.Fits plan scope (⟨bound, Stmt.declaredAll stmts, false⟩ :: outer))
    (orderly : Stmt.allOrderly stmts) (all : ∀ name ∈ Stmt.declaredAll stmts, name ∈ plan scope)
    (named : Stmt.occurrencesIn bound outer stmts ⊆ table) :
    Tracks table plan machine (.ofStmts settings scope (fuel + 1) stmts)
      (Interpreter.executeAll settings scope (fuel + 1) stmts) (Signal.Planned table) := by
  cases stmts with
  | nil => exact .pure planned trivial
  | cons stmt rest =>
    obtain ⟨first, later⟩ := Bool.and_eq_true_iff.mp orderly
    obtain ⟨inFirst, inRest⟩ := List.append_subset.mp named
    have own (name : String) (declared : stmt.declared = some name) : name ∈ plan scope := by
      refine all name ?_
      rw [Stmt.declaredAll_cons]
      exact List.mem_append_left _ (Option.mem_toList.mpr declared)
    refine (ih.execute stmt planned fits first (fun name same => .inr (own name same)) inFirst).bind ?_
    intro signal after plan' ran goes held
    cases signal with
    | normal =>
      -- What the statement declares is bound from here on.
      have fits' := fits.advance (execute_evolves first ran) (held.2 rfl) goes.extended
      refine ih.executeAll rest goes.planned fits' later (fun name member => ?_) inRest
      rw [goes.extended scope fits.made]
      refine all name ?_
      rw [Stmt.declaredAll_cons]
      exact List.mem_append_right _ member
    | returning | jumping => exact .pure goes.planned held.1

theorem repeatWhile_succ (fits : machine.heap.Fits plan scope layers) (condition : Expr Place)
    (body : Stmt Place) (embeds : body.Embeds) (inCondition : condition.occurrences layers ⊆ table)
    (inBody : body.occurrences layers ⊆ table) :
    Tracks table plan machine (.ofLoop settings scope (fuel + 1) condition body)
      (Interpreter.repeatWhile settings scope (fuel + 1) condition body) (Signal.Planned table) := by
  refine (ih.evaluate condition planned fits inCondition).bind fun value after plan' ran goes _ => ?_
  have fits := fits.steady (evaluate_still ran) goes.extended
  split
  · refine (ih.embedded goes.planned fits embeds inBody).bind fun signal last plan'' ran goes held => ?_
    have fits := fits.steady (execute_still embeds ran) goes.extended
    have again := ih.repeatWhile condition body goes.planned fits embeds inCondition inBody
    cases signal with
    | normal => exact again
    | returning => exact .pure goes.planned held
    | jumping jump =>
      cases jump with
      | breaking => exact .pure goes.planned trivial
      | continuing => exact again
  · exact .pure goes.planned trivial

omit ih planned in
/-- The induction over the evaluator, on the budget. -/
theorem everywhere (fuel : Nat) : Follows table settings fuel := by
  induction fuel with
  | zero => exact zero
  | succ fuel ih =>
    constructor
    · exact fun expr planned fits named => ih.evaluate_succ planned fits expr named
    · exact fun exprs planned fits named => ih.evaluateAll_succ planned fits exprs named
    · exact fun line planned held held' => ih.call_succ planned line held held'
    · exact fun stmt planned fits orderly own named =>
        ih.execute_succ planned fits stmt orderly own named
    · exact fun stmts planned fits orderly all named =>
        ih.executeAll_succ planned stmts fits orderly all named
    · exact fun condition body planned fits embeds inCondition inBody =>
        ih.repeatWhile_succ planned fits condition body embeds inCondition inBody

end Follows

/-- The statements of a whole program go by the table, in the scope of the global variables. -/
theorem executeTop_tracks {plan : Plan} {machine : Machine} {scope : ScopeId} (program : Program)
    (planned : machine.heap.Planned table plan) (fits : machine.heap.Fits plan scope [])
    (orderly : Stmt.allOrderly program) (named : program.occurrences ⊆ table) :
    Tracks table plan machine (.ofProgram settings scope fuel program)
      (executeTop settings scope fuel program) fun _ _ _ => True := by
  induction program generalizing plan machine with
  | nil => exact .pure planned trivial
  | cons stmt rest ih =>
    obtain ⟨first, later⟩ := Bool.and_eq_true_iff.mp orderly
    obtain ⟨inFirst, inRest⟩ := List.append_subset.mp named
    have runs : Follows table settings fuel := .everywhere fuel
    refine (runs.execute stmt planned fits first (fun _ _ => .inl rfl) inFirst).bind ?_
    intro signal after plan' ran goes held
    cases signal with
    | normal =>
      have fits := fits.defer (execute_evolves first ran) goes.extended
      exact ih goes.planned fits later inRest
    | returning | jumping => exact .fail _ _

end Lox
