import Lox.Proofs.FlatRunRules

/-! Programs run over flat memory as they do over trees. Whatever index a run reads at stands for a
part of its tree, and the lists of a function are read from the arena that the function takes along. -/

namespace Lox.Flat

theorem readList_length {α : Type} {table : Array α} {range : Range} {entries : List α}
    (found : readList table range = .ok entries) : entries.length = range.size := by
  unfold readList at found
  split at found
  next within =>
    obtain rfl := Except.ok.inj found
    rw [Array.length_toList, Array.size_extract]
    omega
  next => cases found

variable {world : World} {settings : Settings} {fuel : Nat} {arena : Arena} {scope : ScopeId}

/-- The functions of the evaluator end alike, with some budget. -/
structure RunsMatch (world : World) (settings : Settings) (fuel : Nat) : Prop where
  evaluate : ∀ {arena index tree machine start} (scope), world.parsed arena →
    ExprAt world.interner arena index tree → start.Reads world machine →
    Matches world (Value.Reads world) (Interpreter.evaluate settings scope fuel tree)
      (Flat.evaluate settings world.interner arena scope fuel index) machine start
  evaluateAll : ∀ {arena ids trees machine start} (scope), world.parsed arena →
    List.Forall₂ (ExprAt world.interner arena) ids trees → start.Reads world machine →
    Matches world (List.Forall₂ (Value.Reads world))
      (Interpreter.evaluateAll settings scope fuel trees)
      (Flat.evaluateAll settings world.interner arena scope fuel ids) machine start
  call : ∀ {callee other arguments others machine start} (line), callee.Reads world other →
    List.Forall₂ (Value.Reads world) arguments others → start.Reads world machine →
    Matches world (Value.Reads world) (Interpreter.call settings fuel other others line)
      (Flat.call settings world.interner fuel callee arguments line) machine start
  execute : ∀ {arena index tree machine start} (scope), world.parsed arena →
    StmtAt world.interner arena index tree → start.Reads world machine →
    Matches world (Signal.Reads world) (Interpreter.execute settings scope fuel tree)
      (Flat.execute settings world.interner arena scope fuel index) machine start
  executeAll : ∀ {arena ids trees machine start} (scope), world.parsed arena →
    List.Forall₂ (StmtAt world.interner arena) ids trees → start.Reads world machine →
    Matches world (Signal.Reads world) (Interpreter.executeAll settings scope fuel trees)
      (Flat.executeAll settings world.interner arena scope fuel ids) machine start
  repeatWhile : ∀ {arena condition body test tree machine start} (scope), world.parsed arena →
    ExprAt world.interner arena condition test → StmtAt world.interner arena body tree →
    start.Reads world machine →
    Matches world (Signal.Reads world) (Interpreter.repeatWhile settings scope fuel test tree)
      (Flat.repeatWhile settings world.interner arena scope fuel condition body) machine start

namespace RunsMatch

theorem zero : RunsMatch world settings 0 where
  evaluate _ _ _ _ := .exhausted
  evaluateAll _ _ _ _ := .exhausted
  call _ _ _ _ := .exhausted
  execute _ _ _ _ := .exhausted
  executeAll _ _ _ _ := .exhausted
  repeatWhile _ _ _ _ _ := .exhausted

variable (ih : RunsMatch world settings fuel) {machine : Lox.Machine} {start : Machine}
  (reads : start.Reads world machine)
include ih reads

theorem evaluate_succ (parsed : world.parsed arena) {index : Nat} {tree : Expr Place}
    (stands : ExprAt world.interner arena index tree) :
    Matches world (Value.Reads world) (Interpreter.evaluate settings scope (fuel + 1) tree)
      (Flat.evaluate settings world.interner arena scope (fuel + 1) index) machine start := by
  cases stands with
  | literal node same => exact .step (reach_run node) (reads.literal same)
  | grouping node within => exact .step (reach_run node) (ih.evaluate scope parsed within reads)
  | @unary _ operator _ _ _ node within =>
    refine .step (reach_run node) ((ih.evaluate scope parsed within reads).bind ?_)
    intro value result machine start reads _ held
    simp only [held.unary_eq]
    exact reads.lift _ fun _ applied => UnaryOperator.apply_meets applied
  | binary node first second =>
    refine .step (reach_run node) ((ih.evaluate scope parsed first reads).bind ?_)
    intro left left' machine start reads _ held
    refine (ih.evaluate scope parsed second reads).bind ?_
    intro right right' machine start reads _ held'
    simp only [held.binary_eq _ held']
    exact reads.lift _ fun _ applied => BinaryOperator.apply_meets applied
  | @logical _ operator _ _ _ _ _ node first second =>
    cases operator with
    | or =>
      refine .step (reach_run node) ((ih.evaluate scope parsed first reads).bind ?_)
      intro left left' machine start reads _ held
      simp only [held.isTruthy_eq]
      split
      · exact .pure reads held
      · exact ih.evaluate scope parsed second reads
    | and =>
      refine .step (reach_run node) ((ih.evaluate scope parsed first reads).bind ?_)
      intro left left' machine start reads _ held
      simp only [held.isTruthy_eq]
      split
      · exact ih.evaluate scope parsed second reads
      · exact .pure reads held
  | name node gave => exact .step (reach_run node) (reads.get gave _ scope)
  | assign node gave within =>
    refine .step (reach_run node) ((ih.evaluate scope parsed within reads).bind ?_)
    intro value result machine start reads _ held
    refine (reads.assign gave _ held scope).bind fun _ _ _ _ reads _ _ => ?_
    exact .pure reads held
  | call node within list entries =>
    refine .step (reach_run node) ((ih.evaluate scope parsed within reads).bind ?_)
    intro callee callee' machine start reads _ held
    refine .step (reach_run list) ((ih.evaluateAll scope parsed entries reads).bind ?_)
    intro arguments arguments' machine start reads _ held'
    exact ih.call _ held held' reads

theorem evaluateAll_succ (parsed : world.parsed arena) {ids : List Nat} {trees : List (Expr Place)}
    (entries : List.Forall₂ (ExprAt world.interner arena) ids trees) :
    Matches world (List.Forall₂ (Value.Reads world))
      (Interpreter.evaluateAll settings scope (fuel + 1) trees)
      (Flat.evaluateAll settings world.interner arena scope (fuel + 1) ids) machine start := by
  cases entries with
  | nil => exact .pure reads .nil
  | cons first rest =>
    refine (ih.evaluate scope parsed first reads).bind ?_
    intro value result machine start reads _ held
    refine (ih.evaluateAll scope parsed rest reads).bind ?_
    intro values results machine start reads _ held'
    exact .pure reads (.cons held held')

theorem call_succ (limited : ∀ limit, settings.maxDepth = some limit → limit ≤ maxCalls) (line : Nat)
    {callee : Value} {other : Lox.Value} {arguments : List Value} {others : List Lox.Value}
    (held : callee.Reads world other) (held' : List.Forall₂ (Value.Reads world) arguments others) :
    Matches world (Value.Reads world) (Interpreter.call settings (fuel + 1) other others line)
      (Flat.call settings world.interner (fuel + 1) callee arguments line) machine start := by
  cases held with
  | @function closure other made =>
    obtain ⟨names, labels, gaveAll⟩ := made.params
    obtain ⟨ids, list, entries⟩ := made.body
    have arity : closure.params.size = other.arity := by
      rw [← readList_length labels, gaveAll.length_eq, Lox.Closure.arity]
    simp only [Interpreter.call, Flat.call, arity, held'.length_eq, made.name, made.scope]
    by_cases wrong : other.arity ≠ others.length
    · simp only [if_pos wrong]
      exact .failing reads
    simp only [if_neg wrong]
    refine (reads.mayEnter settings line).bind fun _ _ _ middle reads same room => ?_
    rw [← same] at room
    refine .step (reach_run labels) ?_
    refine (reads.enter (EntryReads.ofArguments gaveAll held') other.scope).bind ?_
    intro _ scope _ after reads same entered
    rw [← same] at room
    subst entered
    refine reads.inFrame limited room ⟨other.name, line⟩ fun reads => ?_
    exact .step (reach_run list) (ih.executeAll scope made.parsed entries reads)
  | @native known =>
    simp only [Interpreter.call, Flat.call, held'.length_eq]
    by_cases wrong : known.arity ≠ others.length
    · simp only [if_pos wrong]
      exact .failing reads
    · simp only [if_neg wrong]
      exact reads.native settings known
  | nil | bool | number | string => exact .fail reads line _

theorem execute_succ (parsed : world.parsed arena) {index : Nat} {tree : Stmt Place}
    (stands : StmtAt world.interner arena index tree) :
    Matches world (Signal.Reads world) (Interpreter.execute settings scope (fuel + 1) tree)
      (Flat.execute settings world.interner arena scope (fuel + 1) index) machine start := by
  cases stands with
  | expression node within =>
    refine .step (reach_run node) ((ih.evaluate scope parsed within reads).bind ?_)
    intro _ _ machine start reads _ _
    exact .pure reads .normal
  | print node within =>
    refine .step (reach_run node) ((ih.evaluate scope parsed within reads).bind ?_)
    intro _ _ machine start reads _ held
    refine (reads.print held).bind fun _ _ machine start reads _ _ => ?_
    exact .pure reads .normal
  | declare node gave within =>
    cases within with
    | none =>
      refine .step (reach_run node) ((reads.bind gave .none scope).bind ?_)
      intro _ _ machine start reads _ _
      exact .pure reads .normal
    | some within =>
      refine .step (reach_run node) ((ih.evaluate scope parsed within reads).bind ?_)
      intro _ _ machine start reads _ held
      refine (reads.bind gave (.some held) scope).bind fun _ _ machine start reads _ _ => ?_
      exact .pure reads .normal
  | block node list entries =>
    refine .step (reach_run node) ((reads.enter .nil scope).bind ?_)
    intro _ inner machine start reads _ entered
    subst entered
    exact .step (reach_run list) (ih.executeAll inner parsed entries reads)
  | ifThen node test body =>
    refine .step (reach_run node) ((ih.evaluate scope parsed test reads).bind ?_)
    intro _ _ machine start reads _ held
    simp only [held.isTruthy_eq]
    split
    · exact ih.execute scope parsed body reads
    · exact .pure reads .normal
  | ifElse node test body other =>
    refine .step (reach_run node) ((ih.evaluate scope parsed test reads).bind ?_)
    intro _ _ machine start reads _ held
    simp only [held.isTruthy_eq]
    split
    · exact ih.execute scope parsed body reads
    · exact ih.execute scope parsed other reads
  | whileLoop node test body =>
    exact .step (reach_run node) (ih.repeatWhile scope parsed test body reads)
  | function node gave labels gaveAll list entries =>
    refine .step (reach_run node) ?_
    refine (reads.declareFunction parsed node gave labels gaveAll list entries scope).bind ?_
    intro _ _ machine start reads _ _
    exact .pure reads .normal
  | returnValue node within =>
    cases within with
    | none => exact .step (reach_run node) (.pure reads (.returning .nil))
    | some within =>
      refine .step (reach_run node) ((ih.evaluate scope parsed within reads).bind ?_)
      intro _ _ machine start reads _ held
      exact .pure reads (.returning held)
  | breakLoop node => exact .step (reach_run node) (.pure reads .jumping)
  | continueLoop node => exact .step (reach_run node) (.pure reads .jumping)

theorem executeAll_succ (parsed : world.parsed arena) {ids : List Nat} {trees : List (Stmt Place)}
    (entries : List.Forall₂ (StmtAt world.interner arena) ids trees) :
    Matches world (Signal.Reads world) (Interpreter.executeAll settings scope (fuel + 1) trees)
      (Flat.executeAll settings world.interner arena scope (fuel + 1) ids) machine start := by
  cases entries with
  | nil => exact .pure reads .normal
  | cons first rest =>
    refine (ih.execute scope parsed first reads).bind fun _ _ machine start reads _ held => ?_
    cases held with
    | normal => exact ih.executeAll scope parsed rest reads
    | returning held => exact .pure reads (.returning held)
    | jumping => exact .pure reads .jumping

theorem repeatWhile_succ (parsed : world.parsed arena) {condition body : Nat} {test : Expr Place}
    {tree : Stmt Place} (first : ExprAt world.interner arena condition test)
    (second : StmtAt world.interner arena body tree) :
    Matches world (Signal.Reads world) (Interpreter.repeatWhile settings scope (fuel + 1) test tree)
      (Flat.repeatWhile settings world.interner arena scope (fuel + 1) condition body) machine
        start := by
  refine (ih.evaluate scope parsed first reads).bind fun _ _ machine start reads _ held => ?_
  simp only [held.isTruthy_eq]
  split
  · refine (ih.execute scope parsed second reads).bind fun _ _ machine start reads _ held => ?_
    have again := ih.repeatWhile scope parsed first second reads
    cases held with
    | normal => exact again
    | returning held => exact .pure reads (.returning held)
    | @jumping jump line =>
      cases jump with
      | breaking => exact .pure reads .normal
      | continuing => exact again
  · exact .pure reads .normal

omit ih reads in
/-- The induction over the evaluator, on the budget. -/
theorem everywhere (limited : ∀ limit, settings.maxDepth = some limit → limit ≤ maxCalls)
    (fuel : Nat) : RunsMatch world settings fuel := by
  induction fuel with
  | zero => exact zero
  | succ fuel ih =>
    constructor
    · exact fun scope parsed stands reads => ih.evaluate_succ reads parsed stands
    · exact fun scope parsed entries reads => ih.evaluateAll_succ reads parsed entries
    · exact fun line held held' reads => ih.call_succ reads limited line held held'
    · exact fun scope parsed stands reads => ih.execute_succ reads parsed stands
    · exact fun scope parsed entries reads => ih.executeAll_succ reads parsed entries
    · exact fun scope parsed first second reads => ih.repeatWhile_succ reads parsed first second

end RunsMatch

/-- The statements of a whole program end alike. -/
theorem executeTop_matches (limited : ∀ limit, settings.maxDepth = some limit → limit ≤ maxCalls)
    (parsed : world.parsed arena) {ids : List Nat} {program : Program}
    (entries : List.Forall₂ (StmtAt world.interner arena) ids program) {machine : Lox.Machine}
    {start : Machine} (reads : start.Reads world machine) :
    Matches world (fun _ _ => True) (Interpreter.executeTop settings scope fuel program)
      (executeTop settings world.interner arena scope fuel ids) machine start := by
  induction entries generalizing machine start with
  | nil => exact .pure reads trivial
  | cons first rest ih =>
    refine ((RunsMatch.everywhere limited fuel).execute scope parsed first reads).bind ?_
    intro _ _ machine start reads _ held
    cases held with
    | normal => exact ih reads
    | returning | jumping => exact .fail reads _ _

end Lox.Flat
