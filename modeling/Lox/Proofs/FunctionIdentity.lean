import Mathlib.Logic.ExistsUnique
import Lox.Proofs.RecordedRuns
import Lox.Proofs.ValueEquality

/-! Which functions are equal. Each execution of a declaration makes a function with a number of its
own, and whatever a run does with functions, they stay the functions that were made. So two functions
are equal to a program where one execution made both, and then they are the same function. -/

namespace Lox
open Proofs.DepthLimit (last)

/-- The place of a declaration, and the function that an execution of it made. -/
def Event.made : Event → Option (Place × Closure)
  | .makes place closure => some (place, closure)
  | .moment _ | .gives _ => none

/-- The executions of declarations in the order of their time. -/
def executions (events : List Event) : List (Place × Closure) := events.filterMap Event.made

theorem executions_append (first second : List Event) :
    executions (first ++ second) = executions first ++ executions second :=
  List.filterMap_append

/-- A function that an execution among those of a ledger made: the one that has its number. -/
def Closure.MadeIn (ledger : List (Place × Closure)) (closure : Closure) : Prop :=
  ∃ place, ledger[closure.id]? = some (place, closure)

/-- The functions in the variables of a machine have a property. -/
def Machine.Meets (property : Closure → Prop) (machine : Machine) : Prop :=
  machine.heap.Meets (fun _ => True) property

def Event.Meets (property : Closure → Prop) : Event → Prop
  | .moment machine => machine.Meets property
  | .gives value => value.Meets property
  | .makes _ closure => property closure

namespace Recorded

variable {α β : Type} [Carrier α] [Carrier β] {ledger : List (Place × Closure)} {machine : Machine}

/-- A part of a ledger, written by a run from some machine on, has its numbers in turn; and all
functions that the run has to do with are of the ledger. -/
structure Enters (ledger : List (Place × Closure)) (recorded : Recorded α) (machine : Machine) :
    Prop where
  counted : (last (recorded machine).2).functions =
    machine.functions + (executions (recorded machine).1).length
  numbered : ∀ index place closure,
    (executions (recorded machine).1)[index]? = some (place, closure) →
      closure.id = machine.functions + index
  kept : (last (recorded machine).2).Meets (Closure.MadeIn ledger)
  given : ∀ value after, (recorded machine).2 = .ok value after →
    Carrier.Meets (Closure.MadeIn ledger) value
  told : ∀ event ∈ (recorded machine).1, event.Meets (Closure.MadeIn ledger)

/-- A run does so where its own executions come next in the ledger. -/
def Ledgered (ledger : List (Place × Closure)) (recorded : Recorded α) : Prop :=
  ∀ machine, machine.Meets (Closure.MadeIn ledger) →
    executions (recorded machine).1 <+: ledger.drop machine.functions → recorded.Enters ledger machine

/-- An operation that makes no function. -/
theorem Enters.of {run : Run α} (before : machine.Meets (Closure.MadeIn ledger))
    (counted : (last (run machine)).functions = machine.functions)
    (kept : (last (run machine)).Meets (Closure.MadeIn ledger))
    (given : ∀ value after, run machine = .ok value after →
      Carrier.Meets (Closure.MadeIn ledger) value) :
    (Recorded.of run).Enters ledger machine := by
  refine ⟨counted, ?_, kept, given, ?_⟩
  · rintro index place closure ⟨⟩
  · intro event member
    simp only [Recorded.of, List.mem_cons, List.not_mem_nil, or_false] at member
    rcases member with rfl | rfl
    · exact before
    · exact kept

theorem Enters.append {first : Recorded α} {next : α → Recorded β} {events : List Event} {value : α}
    {after : Machine} (told : first machine = (events, .ok value after))
    (before : first.Enters ledger machine) (later : (next value).Enters ledger after) :
    (first >>= next).Enters ledger machine := by
  obtain ⟨counted, numbered, -, -, entered⟩ := before
  obtain ⟨count, number, keep, give, enter⟩ := later
  rw [told] at counted numbered entered
  replace counted : after.functions = machine.functions + (executions events).length := counted
  constructor
  all_goals rw [bind_ok told]
  · rw [count, counted, executions_append, List.length_append, Nat.add_assoc]
  · intro index place closure found
    rw [executions_append, List.getElem?_append] at found
    split at found
    · exact numbered index place closure found
    · have same := number _ place closure found
      omega
  · exact keep
  · exact give
  · exact fun event member => (List.mem_append.mp member).elim (entered event) (enter event)

theorem Ledgered.bind {first : Recorded α} {next : α → Recorded β} (ledgered : first.Ledgered ledger)
    (rest : ∀ value, Carrier.Meets (Closure.MadeIn ledger) value → (next value).Ledgered ledger) :
    (first >>= next).Ledgered ledger := by
  intro machine before fits
  have entering := ledgered machine before
  rcases told : first machine with ⟨events, ⟨value, after⟩ | ⟨stop, after⟩⟩
  · rw [bind_ok told, executions_append] at fits
    rw [told] at entering
    have entered := entering ((List.prefix_append _ _).trans fits)
    have ⟨counted, _, kept, given, _⟩ := entered
    rw [told] at counted kept given
    refine entered.append told (rest value (given value after rfl) after kept ?_)
    obtain ⟨others, same⟩ := fits
    rw [show after.functions = _ from counted, ← List.drop_drop, ← same, List.append_assoc,
      List.drop_left]
    exact List.prefix_append _ _
  · rw [bind_error told] at fits
    rw [told] at entering
    obtain ⟨counted, numbered, kept, -, entered⟩ := entering fits
    rw [told] at counted numbered kept entered
    constructor
    all_goals rw [bind_error told]
    · exact counted
    · exact numbered
    · exact kept
    · rintro value after ⟨⟩
    · exact entered

theorem Ledgered.giving {recorded : Recorded Value} (ledgered : recorded.Ledgered ledger) :
    (giving recorded).Ledgered ledger := by
  intro machine before fits
  have entering := ledgered machine before
  rcases told : recorded machine with ⟨events, ⟨value, after⟩ | ⟨stop, after⟩⟩
  all_goals
    rw [told] at entering
    simp only [Recorded.giving, told] at fits
  · have same : executions (events ++ [.gives value]) = executions events := by
      rw [executions_append]
      exact List.append_nil _
    obtain ⟨counted, numbered, kept, given, entered⟩ := entering (same ▸ fits)
    rw [told] at counted numbered kept given entered
    constructor
    all_goals simp only [Recorded.giving, told, same]
    · exact counted
    · exact numbered
    · exact kept
    · exact given
    · intro event member
      rcases List.mem_append.mp member with early | late
      · exact entered event early
      · cases List.mem_singleton.mp late
        exact given value after rfl
  · obtain ⟨counted, numbered, kept, given, entered⟩ := entering fits
    rw [told] at counted numbered kept given entered
    constructor
    all_goals
      simp only [Recorded.giving, told]
      assumption

section Operations

theorem get_enters (before : machine.Meets (Closure.MadeIn ledger)) (line : Nat) (name : String)
    (scope : ScopeId) : (of (Run.get line name scope)).Enters ledger machine := by
  cases found : machine.heap.get name scope with
  | ok value =>
    have ran : Run.get line name scope machine = .ok value machine := by
      simp only [Run.get, found]
    apply Enters.of before <;> rw [ran]
    · rfl
    · exact before
    · rintro own after ⟨⟩
      simp only [Heap.get] at found
      split at found
      next owner held bound =>
        cases found
        exact Heap.Meets.find before trivial bound
      all_goals cases found
  | error error =>
    have ran : Run.get line name scope machine = .error (error.stop line name) machine := by
      simp only [Run.get, found]
    apply Enters.of before <;> rw [ran]
    · rfl
    · exact before
    · rintro own after ⟨⟩

theorem assign_enters {value : Value} (before : machine.Meets (Closure.MadeIn ledger))
    (held : value.Meets (Closure.MadeIn ledger)) (line : Nat) (name : String) (scope : ScopeId) :
    (of (Run.assign line name value scope)).Enters ledger machine := by
  apply Enters.of before
  · simp only [Run.assign]
    split <;> rfl
  · simp only [Run.assign]
    split
    · refine Heap.Meets.bind before ?_
      rintro own ⟨⟩
      exact held
    · exact before
  · exact fun _ _ _ => trivial

theorem enter_enters {bindings : Bindings} (before : machine.Meets (Closure.MadeIn ledger))
    (held : bindings.Meets (Closure.MadeIn ledger)) (parent : ScopeId) :
    (of (Run.enter bindings parent)).Enters ledger machine := by
  apply Enters.of before
  · simp only [Run.enter]
    split <;> rfl
  · simp only [Run.enter]
    split
    · exact Heap.Meets.push before trivial held
    · exact before
  · exact fun _ _ _ => trivial

theorem mayEnter_enters (before : machine.Meets (Closure.MadeIn ledger)) (settings : Settings)
    (line : Nat) : (of (Run.mayEnter settings line)).Enters ledger machine := by
  have same : last (Run.mayEnter settings line machine) = machine := by
    simp only [Run.mayEnter]
    split
    · split <;> rfl
    · rfl
  apply Enters.of before
  · rw [same]
  · rw [same]
    exact before
  · exact fun _ _ _ => trivial

theorem bindName_enters {value : Option Value} (before : machine.Meets (Closure.MadeIn ledger))
    (held : ∀ own, value = some own → own.Meets (Closure.MadeIn ledger)) (name : String)
    (scope : ScopeId) : (of (Run.bind name value scope)).Enters ledger machine := by
  apply Enters.of before
  · simp only [Run.bind]
    split <;> rfl
  · simp only [Run.bind]
    split
    · exact Heap.Meets.bind before held
    · exact before
  · exact fun _ _ _ => trivial

/-- An execution of a declaration is the next entry of the ledger. -/
theorem declareFunction_ledgered (place : Place) (name : String) (params : List String)
    (body : List (Stmt Place)) (scope : ScopeId) :
    (declareFunction place name params body scope).Ledgered ledger := by
  intro machine before fits
  let closure : Closure := ⟨machine.functions, name, params, body, scope⟩
  have entry : closure.MadeIn ledger := by
    obtain ⟨others, same⟩ := fits
    refine ⟨place, ?_⟩
    have first := congrArg (·[0]?) same
    rw [List.getElem?_drop] at first
    exact first.symm
  let counting := { machine with functions := machine.functions + 1 }
  have still : counting.Meets (Closure.MadeIn ledger) := before
  have later : (of (Run.bind name (some (.function closure)) scope)).Enters ledger counting := by
    refine bindName_enters still ?_ name scope
    rintro own ⟨⟩
    exact entry
  refine ⟨later.counted, ?_, later.kept, later.given, ?_⟩
  · intro index other made found
    cases index with
    | zero =>
      cases found
      rfl
    | succ index => cases found
  · intro event member
    rcases List.mem_append.mp member with early | late
    · simp only [List.mem_cons, List.not_mem_nil, or_false] at early
      rcases early with rfl | rfl <;> exact before
    · rcases List.mem_append.mp late with noted | late
      · cases List.mem_singleton.mp noted
        exact entry
      · exact later.told event late

end Operations

/-- What the body of a call leaves behind is what the call leaves behind, and what it gives the body
has returned. -/
theorem inFrame_spec (frame : Frame) (body : Run Signal) (machine : Machine) :
    let inner := body { machine with depth := machine.depth + 1 }
    let result := Run.inFrame frame body machine
    (last result).heap = (last inner).heap ∧ (last result).functions = (last inner).functions ∧
      ∀ value after, result = .ok value after →
        ∃ signal middle, inner = .ok signal middle ∧ Run.finish frame signal = .ok value := by
  intro inner result
  simp only [result, Run.inFrame]
  split <;> rename_i ran <;> simp only [inner, ran]
  · split <;> rename_i ended
    · refine ⟨rfl, rfl, ?_⟩
      rintro value after ⟨⟩
      exact ⟨_, _, rfl, ended⟩
    · exact ⟨rfl, rfl, fun _ _ same => by cases same⟩
  all_goals exact ⟨rfl, rfl, fun _ _ same => by cases same⟩

theorem finish_meets {property : Closure → Prop} {frame : Frame} {signal : Signal} {value : Value}
    (meets : signal.Meets property) (ended : Run.finish frame signal = .ok value) :
    value.Meets property := by
  cases signal with
  | normal =>
    cases ended
    trivial
  | returning value line =>
    cases ended
    exact meets
  | jumping jump line => cases ended

theorem Ledgered.inFrame (frame : Frame) {body : Recorded Signal} (ledgered : body.Ledgered ledger) :
    (Recorded.inFrame frame body).Ledgered ledger := by
  intro machine before fits
  let inside := { machine with depth := machine.depth + 1 }
  have same : executions (Recorded.inFrame frame body machine).1 = executions (body inside).1 := by
    change executions ([.moment machine, .moment inside] ++ (body inside).1 ++ [.moment _]) = _
    rw [executions_append, executions_append]
    exact List.append_nil _
  rw [same] at fits
  obtain ⟨counted, numbered, kept, given, told⟩ := ledgered inside before fits
  obtain ⟨heap, functions, returned⟩ := inFrame_spec frame (fun machine => (body machine).2) machine
  have after : (last (Recorded.inFrame frame body machine).2).Meets (Closure.MadeIn ledger) := by
    rw [Machine.Meets]
    exact heap ▸ kept
  constructor
  · rw [same]
    exact functions.trans counted
  · rw [same]
    exact numbered
  · exact after
  · intro value final ran
    obtain ⟨signal, middle, ended, finished⟩ := returned value final ran
    exact finish_meets (given signal middle ended) finished
  · intro event member
    simp only [Recorded.inFrame, List.mem_append, List.mem_cons, List.not_mem_nil, or_false] at member
    rcases member with ((rfl | rfl) | member) | rfl
    · exact before
    · exact before
    · exact told event member
    · exact after

theorem ledgered_respected (settings : Settings) (ledger : List (Place × Closure)) :
    Respected settings (Closure.MadeIn ledger) fun recorded _ => recorded.Ledgered ledger where
  exhausted _ before _ := .of before rfl before nofun
  pure _ held _ before _ := .of before rfl before fun _ _ same => by
    cases same
    exact held
  bind ledgered rest := ledgered.bind rest
  fail _ _ _ before _ := .of before rfl before nofun
  giving ledgered := ledgered.giving
  get line name scope machine before _ := get_enters before line name scope
  assign line name value scope held machine before _ := assign_enters before held line name scope
  bindName name value scope held machine before _ := bindName_enters before held name scope
  enter parent held machine before _ := enter_enters before held parent
  print _ _ before _ := .of before rfl before fun _ _ _ => trivial
  declareFunction := declareFunction_ledgered
  native
    | .clock, _, before, _ => .of before rfl before fun _ _ same => by
      cases same
      trivial
  called line frame bindings parent body run held ledgered :=
    Ledgered.bind (fun machine before _ => mayEnter_enters before settings line) fun _ _ =>
      Ledgered.bind (fun machine before _ => enter_enters before held parent) fun scope _ =>
        (ledgered scope).inFrame frame

end Recorded

namespace Session

variable {settings : Settings} {past : List Event} {session : Session}
  {ledger : List (Place × Closure)}

/-- The ledger of a session, up to its last machine. -/
structure Kept (ledger : List (Place × Closure)) (past : List Event) (machine : Machine) : Prop where
  counted : machine.functions = (executions past).length
  numbered : ∀ (index : Nat) (place : Place) (closure : Closure),
    (executions past)[index]? = some (place, closure) → closure.id = index
  stored : machine.Meets (Closure.MadeIn ledger)
  told : ∀ event ∈ past, event.Meets (Closure.MadeIn ledger)

theorem record_kept {fuel : Nat} {source : String} (kept : Kept ledger past session.machine)
    (fits : executions (past ++ session.record fuel source) <+: ledger) :
    ∃ machine, Kept ledger (past ++ session.record fuel source) machine ∧
      ∀ outcome, session.run fuel source = .ok outcome → outcome.session.machine = machine := by
  obtain ⟨counted, numbered, stored, told⟩ := kept
  rcases record_spec fuel source session with
    ⟨nothing, same⟩ | ⟨program, events, result, ran, same, ends⟩
  · refine ⟨session.machine, ?_, fun outcome ran => by rw [same outcome ran]⟩
    rw [nothing, List.append_nil]
    exact ⟨counted, numbered, stored, told⟩
  · refine ⟨last result, ?_, fun outcome ran => by rw [ends outcome ran]⟩
    rw [same] at fits ⊢
    -- The counter says how many entries of the ledger have come before.
    have next : executions events <+: ledger.drop session.machine.functions := by
      obtain ⟨others, same⟩ := fits
      rw [counted, ← same, executions_append, List.append_assoc, List.drop_left]
      exact List.prefix_append _ _
    have entering := (Recorded.ledgered_respected session.settings ledger).executeTop fuel
      session.globals program { session.machine with printed := #[] } stored
    rw [ran] at entering
    obtain ⟨count, number, kept, -, entered⟩ := entering next
    rw [ran] at count number kept entered
    replace count : (last result).functions =
        session.machine.functions + (executions events).length := count
    constructor
    · rw [count, counted, executions_append, List.length_append]
    · intro index place closure found
      rw [executions_append, List.getElem?_append] at found
      split at found
      · exact numbered index place closure found
      · have same : closure.id = session.machine.functions + _ := number _ place closure found
        omega
    · exact kept
    · exact fun event member => (List.mem_append.mp member).elim (told event) (entered event)

theorem History.kept (history : History settings past session) (fits : executions past <+: ledger) :
    Kept ledger past session.machine := by
  induction history with
  | start =>
    have empty : (Session.start settings).machine.heap.Meets (fun _ => True)
        (Closure.MadeIn ledger) := start_meets settings fun _ _ => trivial
    refine ⟨rfl, nofun, empty, fun event member => ?_⟩
    cases List.mem_singleton.mp member
    exact empty
  | step history ran ih =>
    rw [executions_append] at fits
    obtain ⟨machine, kept, same⟩ := record_kept (ih ((List.prefix_append _ _).trans fits))
      (by rwa [executions_append])
    rw [same _ ran]
    exact kept

end Session

/-- A value occurs where an expression has it, where it is made, and where a variable holds it. -/
inductive Occurs (events : List Event) : Value → Prop where
  | given {value : Value} : .gives value ∈ events → Occurs events value
  | made {place : Place} {closure : Closure} : .makes place closure ∈ events →
    Occurs events (.function closure)
  | held {machine : Machine} {id : ScopeId} {scope : Scope} {name : String} {value : Value} :
    .moment machine ∈ events → machine.heap[id]? = some scope → (name, some value) ∈ scope.bindings →
    Occurs events value

theorem Occurs.meets {property : Closure → Prop} {events : List Event} {value : Value}
    (occurs : Occurs events value) (told : ∀ event ∈ events, event.Meets property) :
    value.Meets property := by
  cases occurs with
  | given member => exact told _ member
  | made member => exact told _ member
  | held member found bound => exact (told _ member).held _ _ trivial found _ _ bound

/-- The function is the one that the execution with this number made. -/
def StemsFrom (events : List Event) (closure : Closure) (execution : Nat) : Prop :=
  ∃ place, (executions events)[execution]? = some (place, closure)

namespace Session

variable {settings : Settings} {past : List Event} {session : Session}

/-- In a session, and in a run that goes on, a function stems from one execution of a declaration,
functions are equal if and only if they stem from the same one, and then they are the same function.
Among all values `==` is symmetric and transitive, and only the number that is none is not equal to
itself; values of different kinds are not equal, strings are where their contents are, and `!=` says
the opposite. -/
theorem equality_is_identity (history : History settings past session) (fuel : Nat) (source : String) :
    let events := past ++ session.record fuel source
    (∀ closure, Occurs events (.function closure) → ∃! execution, StemsFrom events closure execution) ∧
    (∀ first second, Occurs events (.function first) → Occurs events (.function second) →
      (Value.Equal (.function first) (.function second) ↔
        ∃ execution, StemsFrom events first execution ∧ StemsFrom events second execution) ∧
      (Value.Equal (.function first) (.function second) → first = second)) ∧
    (∀ first second : Value, first.Equal second → second.Equal first) ∧
    (∀ first second third : Value, first.Equal second → second.Equal third → first.Equal third) ∧
    (∀ value : Value, value.Equal value ↔ ∀ number, value = .number number → number.isNaN = false) ∧
    (∀ first second : Value, first.Equal second → first.ctorIdx = second.ctorIdx) ∧
    (∀ first second, Value.Equal (.string first) (.string second) ↔ first = second) ∧
    ∀ first second, ∃ answer, BinaryOperator.equal.apply first second = .ok (.bool answer) ∧
      BinaryOperator.notEqual.apply first second = .ok (.bool !answer) := by
  intro events
  have fits : executions past <+: executions events := executions_append _ _ ▸ List.prefix_append _ _
  have whole : executions (past ++ session.record fuel source) <+: executions events :=
    List.prefix_rfl
  obtain ⟨machine, kept, -⟩ := record_kept (history.kept fits) whole
  have made {closure : Closure} (occurs : Occurs events (.function closure)) :
      StemsFrom events closure closure.id := occurs.meets kept.told
  have numbered {closure : Closure} {execution : Nat} (stems : StemsFrom events closure execution) :
      closure.id = execution := kept.numbered _ _ _ stems.choose_spec
  simp only [Value.equal_iff]
  refine ⟨?_, ?_, fun _ _ => .symm, fun _ _ _ => .trans, fun _ => Value.Alike.refl_iff,
    fun _ _ => Value.Alike.kind, fun _ _ => Value.Alike.string_iff, fun first second => ⟨_, rfl, rfl⟩⟩
  · exact fun closure occurs => ⟨closure.id, made occurs, fun other stems => (numbered stems).symm⟩
  · intro first second occurs also
    rw [Value.Alike.function_iff]
    refine ⟨⟨fun same => ⟨first.id, made occurs, same ▸ made also⟩, ?_⟩, fun same => ?_⟩
    · rintro ⟨execution, stems, stem⟩
      exact (numbered stems).trans (numbered stem).symm
    · obtain ⟨place, entry⟩ := made occurs
      obtain ⟨other, again⟩ := made also
      rw [← same, entry] at again
      exact congrArg Prod.snd (Option.some.inj again)

/-- Two calls of one function make two functions of one declaration, which are not equal. -/
theorem equality_is_identity_two_calls :
    let session := start ⟨none, steadyClock⟩
    let source := "fun make() \x7b fun f() \x7b\x7d return f; \x7d var a = make(); var b = make();"
    let events := [.moment session.machine] ++ session.record 40 source
    ∃ place first second, Event.makes place first ∈ events ∧ Event.makes place second ∈ events ∧
      ¬ Value.Equal (.function first) (.function second) := by
  intro session source events
  have history : History ⟨none, steadyClock⟩ [.moment session.machine] session := .start
  have identity := (equality_is_identity history 40 source).2.1
  have numbers : (executions events).map (fun entry => (entry.1, entry.2.id)) =
      [(⟨1, 0, 35⟩, 0), (⟨1, 13, 23⟩, 1), (⟨1, 13, 23⟩, 2)] := by decide +kernel
  have told (place : Place) (id : Nat)
      (entry : (place, id) ∈ (executions events).map fun entry => (entry.1, entry.2.id)) :
      ∃ closure, .makes place closure ∈ events ∧ closure.id = id := by
    obtain ⟨⟨_, closure⟩, member, same⟩ := List.mem_map.mp entry
    obtain ⟨event, member, made⟩ := List.mem_filterMap.mp member
    cases event with
    | makes place closure =>
      cases made
      cases same
      exact ⟨closure, member, rfl⟩
    | moment | gives => cases made
  obtain ⟨first, makes, one⟩ := told ⟨1, 13, 23⟩ 1 (by simp [numbers])
  obtain ⟨second, again, two⟩ := told ⟨1, 13, 23⟩ 2 (by simp [numbers])
  refine ⟨_, first, second, makes, again, fun same => ?_⟩
  have equal := (identity first second (.made makes) (.made again)).2 same
  rw [equal, two] at one
  cases one

end Session
end Lox
