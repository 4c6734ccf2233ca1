import Lox.Proofs.ErrorRuns
import Lox.Proofs.FlatRuns

/-! Calls that no limit holds back. Nested too deep to be counted they use up the memory; up to there
they run as under the greatest limit that can be counted to. -/

namespace Lox

/-- Calls are nested too deep. -/
def RuntimeFault.Overflow : RuntimeFault → Prop
  | .stackOverflow _ => True
  | _ => False

/-- A fault of the program is not one of its depth. -/
theorem RuntimeFault.Plain.calm {fault : RuntimeFault} (plain : fault.Plain) : ¬ fault.Overflow := by
  cases fault <;> first | exact id | exact fun _ => plain

namespace Flat

/-- The settings with a limit on the depth of calls in any case. -/
def capped (settings : Settings) : Settings :=
  { settings with maxDepth := some (settings.maxDepth.getD maxCalls) }

theorem capped_of_limit {settings : Settings} {limit : Nat} (limited : settings.maxDepth = some limit) :
    capped settings = settings := by
  obtain ⟨maxDepth, clock⟩ := settings
  obtain rfl : maxDepth = some limit := limited
  rfl

variable {α β : Type} {settings : Settings} {machine : Machine}

namespace Stop

/-- The memory is not used up, and calls do not nest too deep unless there is a limit. -/
def Calm (settings : Settings) : Stop → Prop
  | panicked panic => panic ≠ .crowded
  | failed error => settings.maxDepth = none → ¬ error.fault.Overflow
  | exhausted => True

def Panics : Stop → Prop
  | panicked _ => True
  | failed _ | exhausted => False

/-- Calls nest too deep, or something goes wrong. -/
def Refuses : Stop → Prop
  | panicked _ => True
  | failed error => error.fault.Overflow
  | exhausted => False

end Stop

/-- Under a limit in any case a run is the same and calm, or else too deep to be counted. -/
def Caps (settings : Settings) (run limited : Run α) (machine : Machine) : Prop :=
  limited machine = run machine ∧
      (∀ stop after, run machine = .error stop after → stop.Calm settings) ∨
    settings.maxDepth = none ∧ (∃ stop after, run machine = .error stop after ∧ stop.Panics) ∧
      ∃ stop after, limited machine = .error stop after ∧ stop.Refuses

namespace Caps

variable {run limited : Run α} {next next' : α → Run β}

theorem same (calm : ∀ stop after, run machine = .error stop after → stop.Calm settings) :
    Caps settings run run machine := .inl ⟨rfl, calm⟩

theorem pure (value : α) : Caps settings (Pure.pure value) (Pure.pure value) machine := same nofun

theorem stopping {stop : Stop} (calm : stop.Calm settings) :
    Caps settings (throw stop : Run α) (throw stop) machine := by
  refine same fun other after ran => ?_
  obtain ⟨rfl, -⟩ := EStateM.Result.error.inj ran
  exact calm

theorem exhausted : Caps settings (throw .exhausted : Run α) (throw .exhausted) machine :=
  stopping trivial

theorem bind (first : Caps settings run limited machine)
    (goesOn : ∀ value after, run machine = .ok value after →
      Caps settings (next value) (next' value) after) :
    Caps settings (run >>= next) (limited >>= next') machine := by
  rcases first with ⟨same, calm⟩ | ⟨unlimited, ⟨stop, after, ran, panics⟩, stop', after', ran', refuses⟩
  · cases ran : run machine with
    | ok value after =>
      have later := goesOn value after ran
      unfold Caps at later ⊢
      rwa [Sequencing.bind_ok ran, Sequencing.bind_ok (same.trans ran)]
    | error stop after =>
      refine .inl ?_
      rw [Sequencing.bind_error ran, Sequencing.bind_error (same.trans ran)]
      refine ⟨rfl, fun other last ended => ?_⟩
      obtain ⟨rfl, -⟩ := EStateM.Result.error.inj ended
      exact calm stop after ran
  · exact .inr ⟨unlimited, ⟨stop, after, Sequencing.bind_error ran, panics⟩,
      stop', after', Sequencing.bind_error ran', refuses⟩

theorem reach {result : Checked α} (roomy : result ≠ .error .crowded) :
    Caps settings (Run.reach result) (Run.reach result) machine := by
  cases result with
  | ok value => exact pure value
  | error panic => exact stopping fun crowded => roomy (congrArg _ crowded)

theorem fail {line : Nat} {fault : RuntimeFault} (calm : ¬ fault.Overflow) :
    Caps settings (Run.fail line fault : Run α) (Run.fail line fault) machine :=
  stopping fun _ => calm

theorem demand_roomy {panic : Panic} (other : panic ≠ .crowded) (found : Option α) :
    demand panic found ≠ .error .crowded := by
  cases found with
  | none => exact fun same => other (Except.error.inj same)
  | some value => nofun

theorem readList_roomy (table : Array α) (range : Range) : readList table range ≠ .error .crowded := by
  unfold readList
  split <;> simp

theorem lift (line : Nat) {result : Except RuntimeFault Lox.Value}
    (plain : ∀ fault, result = .error fault → fault.Plain) :
    Caps settings (Run.lift line result) (Run.lift line result) machine := by
  cases result with
  | ok value => exact reach (by cases value <;> simp [Value.ofSeen])
  | error fault => exact fail (plain fault rfl).calm

theorem literal (interner : Interner) (value : Literal) :
    Caps settings (Run.literal interner value) (Run.literal interner value) machine := by
  cases value with
  | nil | bool | number => exact pure _
  | string contents => exact (reach (demand_roomy (by decide) _)).bind fun _ _ _ => pure _

theorem missing (interner : Interner) (line : Nat) (name : Name) (error : ScopeError) :
    Caps settings (Run.missing interner line name error : Run α)
      (Run.missing interner line name error) machine := by
  cases error with
  | undefined | uninitialized =>
    exact (reach (demand_roomy (by decide) _)).bind fun _ _ _ => fail not_false
  | dangling => exact stopping nofun

theorem get (interner : Interner) (line : Nat) (name : Name) (scope : ScopeId) :
    Caps settings (Run.get interner line name scope) (Run.get interner line name scope) machine := by
  unfold Caps Run.get
  cases machine.heap.get name scope with
  | ok value => exact pure value
  | error error => exact missing interner line name error

theorem assign (interner : Interner) (line : Nat) (name : Name) (value : Value) (scope : ScopeId) :
    Caps settings (Run.assign interner line name value scope)
      (Run.assign interner line name value scope) machine := by
  unfold Caps Run.assign
  cases machine.heap.find name scope with
  | ok binding => exact .inl ⟨rfl, nofun⟩
  | error error => exact missing interner line name error

theorem bindName (name : Name) (value : Option Value) (scope : ScopeId) :
    Caps settings (Run.bind name value scope) (Run.bind name value scope) machine := by
  refine same fun stop after ran => ?_
  unfold Run.bind at ran
  split at ran <;> cases ran
  nofun

theorem enter (bindings : Bindings) (parent : ScopeId) :
    Caps settings (Run.enter bindings parent) (Run.enter bindings parent) machine := by
  refine same fun stop after ran => ?_
  unfold Run.enter at ran
  split at ran <;> cases ran
  nofun

theorem declareFunction (interner : Interner) (arena : Arena) (name : Name) (params body : Range)
    (scope : ScopeId) : Caps settings (Run.declareFunction interner arena name params body scope)
      (Run.declareFunction interner arena name params body scope) machine := by
  have counted : Caps settings Run.newFunction Run.newFunction machine := same nofun
  refine counted.bind fun id after _ => (reach (demand_roomy (by decide) _)).bind fun text _ _ => ?_
  exact bindName name _ scope

theorem native (native : Native) :
    Caps settings (Run.native settings native) (Run.native (capped settings) native) machine := by
  cases native
  exact .inl ⟨rfl, nofun⟩

theorem shallower : Caps settings (Run.count shallower) (Run.count shallower) machine := by
  refine same fun stop after ran => ?_
  unfold Run.count Flat.shallower at ran
  split at ran
  next => cases ran
  next panic counted =>
    obtain ⟨rfl, -⟩ := EStateM.Result.error.inj ran
    split at counted <;> cases counted
    exact nofun

theorem finish (frame : Frame) (signal : Signal) :
    Caps settings (Run.finish frame signal) (Run.finish frame signal) machine := by
  cases signal with
  | normal | returning value line => exact pure _
  | jumping jump line => exact stopping fun _ => not_false

/-- Leaving a call keeps what its body came to. -/
theorem leaving (frame : Frame) {body body' : Run Signal} (inside : Caps settings body body' machine) :
    Caps settings (Run.leaving frame body) (Run.leaving frame body') machine := by
  unfold Caps Run.leaving
  rcases inside with ⟨same, calm⟩ | ⟨unlimited, ⟨stop, after, ran, panics⟩, stop', after', ran', refuses⟩
  · rw [same]
    cases ran : body machine with
    | ok signal after => exact shallower.bind fun _ _ _ => finish frame signal
    | error stop after =>
      have calm := calm stop after ran
      cases stop with
      | failed error =>
        have within : (Stop.failed (error.within frame)).Calm settings := calm
        exact shallower.bind fun _ _ _ => stopping within
      | exhausted | panicked =>
        have left : Caps settings (throw _ : Run Value) (throw _) after := stopping calm
        exact left
  · refine .inr ⟨unlimited, ?_, ?_⟩
    · cases stop with
      | panicked panic => exact ⟨.panicked panic, after, by rw [ran], trivial⟩
      | failed | exhausted => exact panics.elim
    · cases stop' with
      | panicked panic => exact ⟨.panicked panic, after', by rw [ran'], trivial⟩
      | exhausted => exact refuses.elim
      | failed error =>
        have overflow : (error.within frame).fault.Overflow := refuses
        rw [ran']
        cases left : Run.count Flat.shallower after' with
        | ok _ last => exact ⟨_, last, Sequencing.bind_ok left, overflow⟩
        | error stop last =>
          refine ⟨stop, last, Sequencing.bind_error left, ?_⟩
          unfold Run.count at left
          split at left <;> cases left
          trivial

/-- A call that can be counted. -/
theorem inFrame (frame : Frame) {body body' : Run Signal}
    (counted : settings.maxDepth = none → machine.depth < maxCalls)
    (inside : ∀ machine, Caps settings body body' machine) :
    Caps settings (Run.inFrame settings frame body) (Run.inFrame (capped settings) frame body')
      machine := by
  have deeper : Caps settings (Run.count (deeper settings.maxDepth))
      (Run.count (deeper (capped settings).maxDepth)) machine := by
    cases limit : settings.maxDepth with
    | some limit =>
      rw [capped_of_limit limit, limit]
      refine same fun stop after ran => ?_
      unfold Run.count Flat.deeper at ran
      split at ran
      next => cases ran
      next panic counted =>
        obtain ⟨rfl, -⟩ := EStateM.Result.error.inj ran
        split at counted <;> cases counted
        exact nofun
    | none =>
      refine .inl ⟨?_, ?_⟩
      · simp only [Run.count, Flat.deeper, if_pos (counted limit)]
      · simp only [Run.count, Flat.deeper, if_pos (counted limit)]
        nofun
  exact deeper.bind fun _ after _ => leaving frame (inside after)

end Caps

/-- The run reaches for more than there is. -/
def Panics (run : Run α) (machine : Machine) : Prop :=
  ∃ stop after, run machine = .error stop after ∧ stop.Panics

namespace Panics

theorem reach {result : Checked α} {next : α → Run β} (later : ∀ value, Panics (next value) machine) :
    Panics (Run.reach result >>= next) machine := by
  cases result with
  | error panic => exact ⟨_, machine, rfl, trivial⟩
  | ok value => exact later value

theorem enter {bindings : Bindings} {parent : ScopeId} {next : ScopeId → Run β}
    (later : ∀ scope heap, Panics (next scope) { machine with heap }) :
    Panics (Run.enter bindings parent >>= next) machine := by
  by_cases there : parent < machine.heap.size
  · have ran : Run.enter bindings parent machine = .ok machine.heap.size
        { machine with heap := machine.heap.push ⟨bindings, some parent⟩ } := if_pos there
    unfold Panics
    rw [Sequencing.bind_ok ran]
    exact later _ _
  · exact ⟨_, machine, Sequencing.bind_error (if_neg there), trivial⟩

theorem inFrame (frame : Frame) (body : Run Signal) (deep : maxCalls ≤ machine.depth) :
    Panics (Run.inFrame settings frame body) machine := by
  have ran : Run.count (deeper settings.maxDepth) machine =
      .error (.panicked (if settings.maxDepth.isSome then .counter else .crowded)) machine := by
    simp only [Run.count, deeper, if_neg (Nat.not_lt.mpr deep)]
  exact ⟨_, machine, Sequencing.bind_error ran, trivial⟩

end Panics

namespace Caps

/-- Where no limit holds a call back, either it can be counted or it fails in any case. -/
theorem mayEnter (line : Nat) {rest rest' : Run α}
    (inside : (settings.maxDepth = none → machine.depth < maxCalls) →
      Caps settings rest rest' machine)
    (beyond : maxCalls ≤ machine.depth → Panics rest machine) :
    Caps settings (Run.mayEnter settings line >>= fun _ => rest)
      (Run.mayEnter (capped settings) line >>= fun _ => rest') machine := by
  cases limit : settings.maxDepth with
  | some most =>
    have first : Caps settings (Run.mayEnter settings line) (Run.mayEnter (capped settings) line)
        machine := by
      rw [capped_of_limit limit]
      refine same fun stop after ran => ?_
      simp only [Run.mayEnter, limit] at ran
      split at ran <;> cases ran
      exact fun unlimited => absurd (limit.symm.trans unlimited) nofun
    refine first.bind fun _ after ran => ?_
    simp only [Run.mayEnter, limit] at ran
    split at ran <;> cases ran
    exact inside fun unlimited => absurd (limit.symm.trans unlimited) nofun
  | none =>
    have passed : Run.mayEnter settings line machine = .ok () machine := by
      simp only [Run.mayEnter, limit]
    by_cases deep : maxCalls ≤ machine.depth
    -- Here the two ways part: the limit refuses the call that could not have been counted.
    · have refused : Run.mayEnter (capped settings) line machine =
          .error (.failed (.ofFault line (.stackOverflow maxCalls))) machine := by
        simp only [Run.mayEnter, capped, limit, Option.getD_none, if_pos deep]
      obtain ⟨stop, after, ran, panics⟩ := beyond deep
      refine .inr ⟨limit, ⟨stop, after, (Sequencing.bind_ok passed).trans ran, panics⟩, ?_⟩
      exact ⟨_, machine, Sequencing.bind_error refused, trivial⟩
    · have passed' : Run.mayEnter (capped settings) line machine = .ok () machine := by
        simp only [Run.mayEnter, capped, limit, Option.getD_none, if_neg deep]
      have inside := inside fun _ => Nat.lt_of_not_le deep
      unfold Caps at inside ⊢
      rwa [Sequencing.bind_ok passed, Sequencing.bind_ok passed']

end Caps

theorem Machine.depth_of_reach {result : Checked α} {value : α} {after : Machine}
    (ran : Run.reach result machine = .ok value after) : after.depth = machine.depth := by
  cases result <;> cases ran
  rfl

theorem Machine.depth_of_enter {bindings : Bindings} {parent id : ScopeId} {after : Machine}
    (ran : Run.enter bindings parent machine = .ok id after) : after.depth = machine.depth := by
  unfold Run.enter at ran
  split at ran <;> cases ran
  rfl

variable {interner : Interner} {fuel : Nat}

/-- The functions of the evaluator under a limit in any case. -/
structure RunsCap (settings : Settings) (interner : Interner) (fuel : Nat) : Prop where
  evaluate : ∀ arena scope index machine, Caps settings
    (evaluate settings interner arena scope fuel index)
    (Flat.evaluate (capped settings) interner arena scope fuel index) machine
  evaluateAll : ∀ arena scope ids machine, Caps settings
    (evaluateAll settings interner arena scope fuel ids)
    (Flat.evaluateAll (capped settings) interner arena scope fuel ids) machine
  call : ∀ callee arguments line machine, Caps settings
    (call settings interner fuel callee arguments line)
    (Flat.call (capped settings) interner fuel callee arguments line) machine
  execute : ∀ arena scope index machine, Caps settings
    (execute settings interner arena scope fuel index)
    (Flat.execute (capped settings) interner arena scope fuel index) machine
  executeAll : ∀ arena scope ids machine, Caps settings
    (executeAll settings interner arena scope fuel ids)
    (Flat.executeAll (capped settings) interner arena scope fuel ids) machine
  repeatWhile : ∀ arena scope condition body machine, Caps settings
    (repeatWhile settings interner arena scope fuel condition body)
    (Flat.repeatWhile (capped settings) interner arena scope fuel condition body) machine

namespace RunsCap

theorem zero : RunsCap settings interner 0 where
  evaluate _ _ _ _ := .exhausted
  evaluateAll _ _ _ _ := .exhausted
  call _ _ _ _ := .exhausted
  execute _ _ _ _ := .exhausted
  executeAll _ _ _ _ := .exhausted
  repeatWhile _ _ _ _ _ := .exhausted

variable (ih : RunsCap settings interner fuel)
include ih

theorem evaluate_succ (arena : Arena) (scope : ScopeId) (index : Nat) (machine : Machine) :
    Caps settings (Flat.evaluate settings interner arena scope (fuel + 1) index)
      (Flat.evaluate (capped settings) interner arena scope (fuel + 1) index) machine := by
  refine (Caps.reach (Caps.demand_roomy (by decide) _)).bind fun node machine _ => ?_
  cases node.kind with
  | literal value => exact .literal interner value
  | grouping inner => exact ih.evaluate arena scope inner machine
  | unary operator operand =>
    refine (ih.evaluate arena scope operand machine).bind fun value machine _ => ?_
    exact .lift _ fun fault failed => (UnaryOperator.fault_of_apply failed).plain
  | binary operator left right =>
    refine (ih.evaluate arena scope left machine).bind fun first machine _ => ?_
    refine (ih.evaluate arena scope right machine).bind fun second machine _ => ?_
    exact .lift _ fun fault failed => (BinaryOperator.fault_of_apply failed).plain
  | logical operator left right =>
    cases operator with
    | or =>
      refine (ih.evaluate arena scope left machine).bind fun first machine _ => ?_
      split
      · exact .pure first
      · exact ih.evaluate arena scope right machine
    | and =>
      refine (ih.evaluate arena scope left machine).bind fun first machine _ => ?_
      split
      · exact ih.evaluate arena scope right machine
      · exact .pure first
  | name name => exact .get interner _ name scope
  | assign name value =>
    refine (ih.evaluate arena scope value machine).bind fun value machine _ => ?_
    exact (Caps.assign interner _ name value scope).bind fun _ _ _ => .pure value
  | call callee range =>
    refine (ih.evaluate arena scope callee machine).bind fun callee machine _ => ?_
    refine (Caps.reach (Caps.readList_roomy _ _)).bind fun ids machine _ => ?_
    refine (ih.evaluateAll arena scope ids machine).bind fun arguments machine _ => ?_
    exact ih.call callee arguments _ machine

theorem evaluateAll_succ (arena : Arena) (scope : ScopeId) (ids : List Nat) (machine : Machine) :
    Caps settings (Flat.evaluateAll settings interner arena scope (fuel + 1) ids)
      (Flat.evaluateAll (capped settings) interner arena scope (fuel + 1) ids) machine := by
  cases ids with
  | nil => exact .pure []
  | cons index rest =>
    refine (ih.evaluate arena scope index machine).bind fun value machine _ => ?_
    refine (ih.evaluateAll arena scope rest machine).bind fun values machine _ => ?_
    exact .pure (value :: values)

theorem call_succ (callee : Value) (arguments : List Value) (line : Nat) (machine : Machine) :
    Caps settings (Flat.call settings interner (fuel + 1) callee arguments line)
      (Flat.call (capped settings) interner (fuel + 1) callee arguments line) machine := by
  cases callee with
  | nil | bool | number | string => exact .fail not_false
  | native known =>
    simp only [Flat.call]
    by_cases wrong : known.arity ≠ arguments.length
    · simp only [if_pos wrong]
      exact .fail not_false
    · simp only [if_neg wrong]
      exact .native known
  | function closure =>
    simp only [Flat.call]
    by_cases wrong : closure.params.size ≠ arguments.length
    · simp only [if_pos wrong]
      exact .fail not_false
    simp only [if_neg wrong]
    refine .mayEnter line (fun counted => ?_) fun deep => ?_
    · refine (Caps.reach (Caps.readList_roomy _ _)).bind fun params machine' reached => ?_
      refine (Caps.enter _ _).bind fun scope machine'' entered => ?_
      rw [← Machine.depth_of_reach reached, ← Machine.depth_of_enter entered] at counted
      refine .inFrame _ counted fun machine => ?_
      refine (Caps.reach (Caps.readList_roomy _ _)).bind fun ids machine _ => ?_
      exact ih.executeAll closure.arena scope ids machine
    · refine .reach fun params => .enter fun scope heap => ?_
      exact .inFrame _ _ deep

theorem execute_succ (arena : Arena) (scope : ScopeId) (index : Nat) (machine : Machine) :
    Caps settings (Flat.execute settings interner arena scope (fuel + 1) index)
      (Flat.execute (capped settings) interner arena scope (fuel + 1) index) machine := by
  refine (Caps.reach (Caps.demand_roomy (by decide) _)).bind fun node machine _ => ?_
  cases node.kind with
  | expression expr =>
    exact (ih.evaluate arena scope expr machine).bind fun _ _ _ => .pure _
  | print expr =>
    refine (ih.evaluate arena scope expr machine).bind fun value machine _ => ?_
    have printed : Caps settings (Run.print value) (Run.print value) machine := .same nofun
    exact printed.bind fun _ _ _ => .pure _
  | declare name initial =>
    cases initial with
    | none => exact (Caps.bindName name none scope).bind fun _ _ _ => .pure _
    | some initial =>
      refine (ih.evaluate arena scope initial machine).bind fun value machine _ => ?_
      exact (Caps.bindName name (some value) scope).bind fun _ _ _ => .pure _
  | block body =>
    refine (Caps.enter [] scope).bind fun inner machine _ => ?_
    refine (Caps.reach (Caps.readList_roomy _ _)).bind fun ids machine _ => ?_
    exact ih.executeAll arena inner ids machine
  | branch condition body other =>
    cases other with
    | none =>
      refine (ih.evaluate arena scope condition machine).bind fun value machine _ => ?_
      split
      · exact ih.execute arena scope body machine
      · exact .pure _
    | some other =>
      refine (ih.evaluate arena scope condition machine).bind fun value machine _ => ?_
      split
      · exact ih.execute arena scope body machine
      · exact ih.execute arena scope other machine
  | whileLoop condition body => exact ih.repeatWhile arena scope condition body machine
  | function name params body =>
    exact (Caps.declareFunction interner arena name params body scope).bind fun _ _ _ => .pure _
  | returnValue value =>
    cases value with
    | none => exact .pure _
    | some expr => exact (ih.evaluate arena scope expr machine).bind fun _ _ _ => .pure _
  | breakLoop | continueLoop => exact .pure _

theorem executeAll_succ (arena : Arena) (scope : ScopeId) (ids : List Nat) (machine : Machine) :
    Caps settings (Flat.executeAll settings interner arena scope (fuel + 1) ids)
      (Flat.executeAll (capped settings) interner arena scope (fuel + 1) ids) machine := by
  cases ids with
  | nil => exact .pure _
  | cons index rest =>
    refine (ih.execute arena scope index machine).bind fun signal machine _ => ?_
    cases signal with
    | normal => exact ih.executeAll arena scope rest machine
    | returning | jumping => exact .pure _

theorem repeatWhile_succ (arena : Arena) (scope : ScopeId) (condition body : Nat)
    (machine : Machine) :
    Caps settings (Flat.repeatWhile settings interner arena scope (fuel + 1) condition body)
      (Flat.repeatWhile (capped settings) interner arena scope (fuel + 1) condition body)
        machine := by
  refine (ih.evaluate arena scope condition machine).bind fun value machine _ => ?_
  split
  · refine (ih.execute arena scope body machine).bind fun signal machine _ => ?_
    have again := ih.repeatWhile arena scope condition body machine
    cases signal with
    | normal => exact again
    | returning => exact .pure _
    | jumping jump =>
      cases jump with
      | breaking => exact .pure _
      | continuing => exact again
  · exact .pure _

omit ih in
/-- The induction over the evaluator, on the budget. -/
theorem everywhere (fuel : Nat) : RunsCap settings interner fuel := by
  induction fuel with
  | zero => exact zero
  | succ fuel ih =>
    constructor
    · exact ih.evaluate_succ
    · exact ih.evaluateAll_succ
    · exact ih.call_succ
    · exact ih.execute_succ
    · exact ih.executeAll_succ
    · exact ih.repeatWhile_succ

end RunsCap

theorem executeTop_caps (arena : Arena) (scope : ScopeId) (fuel : Nat) (ids : List Nat)
    (machine : Machine) : Caps settings (executeTop settings interner arena scope fuel ids)
      (executeTop (capped settings) interner arena scope fuel ids) machine := by
  induction ids generalizing machine with
  | nil => exact .pure ()
  | cons index rest ih =>
    have runs : RunsCap settings interner fuel := .everywhere fuel
    have first := runs.execute arena scope index machine
    refine first.bind fun signal machine _ => ?_
    cases signal with
    | normal => exact ih machine
    | returning | jumping => exact .fail not_false

end Flat
end Lox
