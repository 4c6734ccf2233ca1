import Lox.Proofs.RecordedRuns

/-! The depth of calls. Every run ends as deep as it began, also where it ends with an error; and at
no moment are calls nested deeper than the limit allows. -/

namespace Lox
open Proofs.DepthLimit (last)

namespace Recorded

variable {α β : Type} {limit : Option Nat} {machine : Machine}

/-- A run from some machine ends as deep as it began, and is at no moment of its record deeper than
the limit, or than it was at first. -/
structure KeepsDepth (limit : Option Nat) (recorded : Recorded α) (run : Run α) (machine : Machine) :
    Prop where
  follows : (recorded machine).2 = run machine
  balanced : (last (run machine)).depth = machine.depth
  bounded : ∀ inside, .moment inside ∈ (recorded machine).1 → ∀ bound ∈ limit,
    inside.depth ≤ max machine.depth bound

namespace KeepsDepth

/-- An operation that does not touch the depth. -/
theorem of {run : Run α} (balanced : (last (run machine)).depth = machine.depth) :
    KeepsDepth limit (.of run) run machine := by
  refine ⟨rfl, balanced, ?_⟩
  intro inside told bound _
  simp only [Recorded.of, List.mem_cons, Event.moment.injEq, List.not_mem_nil, or_false] at told
  rcases told with rfl | rfl
  · exact Nat.le_max_left ..
  · rw [balanced]
    exact Nat.le_max_left ..

theorem bind {first : Recorded α} {run : Run α} {next : α → Recorded β} {later : α → Run β}
    (keeps : KeepsDepth limit first run machine) (rest : ∀ value after,
      run machine = .ok value after → KeepsDepth limit (next value) (later value) after) :
    KeepsDepth limit (first >>= next) (run >>= later) machine := by
  obtain ⟨follows, balanced, bounded⟩ := keeps
  rcases told : first machine with ⟨events, ⟨value, after⟩ | ⟨stop, after⟩⟩
  all_goals
    rw [told] at follows bounded
    rw [← follows] at balanced
  · obtain ⟨same, level, below⟩ := rest value after follows.symm
    constructor
    · rw [bind_ok told, Sequencing.bind_ok follows.symm, same]
    · rw [Sequencing.bind_ok follows.symm, level]
      exact balanced
    · rw [bind_ok told]
      intro inside member
      rcases List.mem_append.mp member with early | late
      · exact bounded inside early
      · rw [← show after.depth = machine.depth from balanced]
        exact below inside late
  · constructor
    · rw [bind_error told, Sequencing.bind_error follows.symm]
    · rw [Sequencing.bind_error follows.symm]
      exact balanced
    · rw [bind_error told]
      exact bounded

theorem giving {recorded : Recorded Value} {run : Run Value}
    (keeps : KeepsDepth limit recorded run machine) :
    KeepsDepth limit (giving recorded) run machine := by
  obtain ⟨follows, balanced, bounded⟩ := keeps
  rcases told : recorded machine with ⟨events, ⟨value, after⟩ | ⟨stop, after⟩⟩
  all_goals
    rw [told] at follows bounded
    refine ⟨?_, balanced, ?_⟩
  · rw [← follows, Recorded.giving, told]
  · simpa [Recorded.giving, told] using bounded
  · rw [← follows, Recorded.giving, told]
  · simpa [Recorded.giving, told] using bounded

/-- Noting what is not about the machine. -/
theorem note {event : Event} {recorded : Recorded α} {run : Run α}
    (other : ∀ machine, event ≠ .moment machine) (keeps : KeepsDepth limit recorded run machine) :
    KeepsDepth limit (note event >>= fun _ => recorded) run machine := by
  refine ⟨keeps.follows, keeps.balanced, ?_⟩
  intro inside told
  rcases List.mem_cons.mp told with same | member
  · exact absurd same.symm (other inside)
  · exact keeps.bounded inside member

/-- One call deeper is not too deep where another call may begin. -/
theorem inFrame (frame : Frame) {body : Recorded Signal} {run : Run Signal}
    (keeps : ∀ machine, KeepsDepth limit body run machine)
    (room : ∀ bound ∈ limit, machine.depth < bound) :
    KeepsDepth limit (Recorded.inFrame frame body) (Run.inFrame frame run) machine := by
  obtain ⟨-, balanced, bounded⟩ := keeps { machine with depth := machine.depth + 1 }
  have follows := Follows.inFrame frame (fun machine => (keeps machine).follows) machine
  have level : (last (Run.inFrame frame run machine)).depth = machine.depth := by
    simp only [Run.inFrame]
    split <;> rename_i ran <;> rw [ran] at balanced <;> simp only [last] at balanced
    · split <;> simp only [last, balanced, Nat.add_sub_cancel]
    all_goals simp only [last, balanced, Nat.add_sub_cancel]
  refine ⟨follows, level, ?_⟩
  intro inside told bound within
  have below := room bound within
  simp only [Recorded.inFrame, List.mem_append, List.mem_cons, Event.moment.injEq, List.not_mem_nil,
    or_false] at told
  rcases told with ((rfl | rfl) | member) | rfl
  · exact Nat.le_max_left ..
  · exact Nat.le_trans below (Nat.le_max_right ..)
  · exact Nat.le_trans (bounded inside member bound within)
      (Nat.max_le.mpr ⟨Nat.le_trans below (Nat.le_max_right ..), Nat.le_max_right ..⟩)
  · change (last (Run.inFrame frame (fun machine => (body machine).2) machine)).depth ≤ _
    have same : (fun machine => (body machine).2) = run :=
      funext fun machine => (keeps machine).follows
    rw [same, level]
    exact Nat.le_max_left ..

end KeepsDepth

/-- Where another call may begin, there is room for it. -/
theorem room_of_mayEnter {settings : Settings} {line : Nat} {value : Unit} {after : Machine}
    (ran : Run.mayEnter settings line machine = .ok value after) :
    after = machine ∧ ∀ bound ∈ settings.maxDepth, machine.depth < bound := by
  simp only [Run.mayEnter] at ran
  split at ran
  next limit given =>
    split at ran
    · cases ran
    next shallow =>
      cases ran
      refine ⟨rfl, fun bound within => ?_⟩
      rw [given, Option.mem_some] at within
      omega
  next given =>
    cases ran
    refine ⟨rfl, fun bound within => ?_⟩
    simp [given] at within

theorem bindName_keepsDepth (name : String) (value : Option Value) (scope : ScopeId) :
    KeepsDepth limit (of (Run.bind name value scope)) (Run.bind name value scope) machine := by
  apply KeepsDepth.of
  simp only [Run.bind]
  split <;> rfl

theorem enter_keepsDepth (bindings : Bindings) (parent : ScopeId) :
    KeepsDepth limit (of (Run.enter bindings parent)) (Run.enter bindings parent) machine := by
  apply KeepsDepth.of
  simp only [Run.enter]
  split <;> rfl

theorem mayEnter_keepsDepth (settings : Settings) (line : Nat) :
    KeepsDepth limit (of (Run.mayEnter settings line)) (Run.mayEnter settings line) machine := by
  apply KeepsDepth.of
  simp only [Run.mayEnter]
  split
  · split <;> rfl
  · rfl

/-- A new scope has nothing to do with the depth. -/
theorem enter_depth {bindings : Bindings} {parent scope : ScopeId} {after : Machine}
    (ran : Run.enter bindings parent machine = .ok scope after) : after.depth = machine.depth := by
  have keeps : KeepsDepth none (of (Run.enter bindings parent)) (Run.enter bindings parent) machine :=
    enter_keepsDepth bindings parent
  have balanced := keeps.balanced
  rwa [ran] at balanced

theorem keepsDepth_respected (settings : Settings) : Respected settings (fun _ => True)
    fun recorded run => ∀ machine, KeepsDepth settings.maxDepth recorded run machine where
  exhausted _ := .of rfl
  pure _ _ _ := .of rfl
  bind keeps rest machine := (keeps machine).bind fun value after _ =>
    rest value (Carrier.any value) after
  fail _ _ _ := .of rfl
  giving keeps machine := (keeps machine).giving
  get line name scope machine := .of (by
    simp only [Run.get]
    split <;> rfl)
  assign line name value scope _ machine := .of (by
    simp only [Run.assign]
    split <;> rfl)
  bindName name value scope _ machine := bindName_keepsDepth name value scope
  enter parent _ machine := enter_keepsDepth _ parent
  print _ _ := .of rfl
  declareFunction place name params body scope machine :=
    KeepsDepth.bind (.of rfl) fun id after _ =>
      .note (fun _ same => by cases same) (bindName_keepsDepth _ _ _)
  native
    | .clock, _ => .of rfl
  called line frame bindings parent body run _ keeps machine := by
    refine (mayEnter_keepsDepth settings line).bind fun _ after ran => ?_
    obtain ⟨rfl, room⟩ := room_of_mayEnter ran
    refine (enter_keepsDepth bindings parent).bind fun scope inner entered => ?_
    refine .inFrame frame (keeps scope) fun bound within => ?_
    rw [enter_depth entered]
    exact room bound within

end Recorded

namespace Session

/-- A step of a session, which may end with an error. -/
inductive Step (session : Session) : Session → Prop where
  | run {fuel : Nat} {source : String} {outcome : Outcome (List Diagnostic)} :
    session.run fuel source = .ok outcome → Step session outcome.session
  | evaluate {fuel : Nat} {expr : Expr Place} {outcome : Outcome (Except RuntimeError Value)} :
    session.evaluate fuel expr = .ok outcome → Step session outcome.session
  | execute {fuel : Nat} {stmt : Stmt Place} {outcome : Outcome (Except RuntimeError Signal)} :
    session.execute fuel stmt = .ok outcome → Step session outcome.session
  | call {fuel line : Nat} {callee : Value} {arguments : List Value}
      {outcome : Outcome (Except RuntimeError Value)} :
    session.call fuel callee arguments line = .ok outcome → Step session outcome.session

theorem perform_depth {α : Type} {session : Session} {action : Run α}
    {outcome : Outcome (Except RuntimeError α)}
    (balanced : ∀ machine, (last (action machine)).depth = machine.depth)
    (ran : session.perform action = .ok outcome) :
    outcome.session.machine.depth = session.machine.depth := by
  obtain ⟨machine, ended, -, same⟩ := perform_eq_ok.mp ran
  have level := balanced { session.machine with printed := #[] }
  rw [ended, Proofs.DepthLimit.last_ended] at level
  rw [same]
  exact level

variable {session : Session}

theorem Step.depth_eq {next : Session} (step : session.Step next) :
    next.machine.depth = session.machine.depth := by
  have keeps := Recorded.keepsDepth_respected session.settings
  cases step with
  | @run fuel source outcome ran =>
    rcases record_spec fuel source session with ⟨-, same⟩ | ⟨program, events, result, told, -, same⟩
    · rw [same outcome ran]
    · have kept := keeps.executeTop fuel session.globals program { session.machine with printed := #[] }
      have level := kept.balanced
      rw [← kept.follows, told] at level
      rw [same outcome ran]
      exact level
  | evaluate ran => exact perform_depth (fun _ => ((keeps.everywhere _).evaluate _ _ _).balanced) ran
  | execute ran => exact perform_depth (fun _ => ((keeps.everywhere _).execute _ _ _).balanced) ran
  | call ran =>
    have called := fun fuel callee arguments line =>
      (keeps.everywhere fuel).call callee line (Carrier.any (arguments : List Value))
    exact perform_depth (fun machine => (called _ _ _ _ machine).balanced) ran

theorem record_bounded {fuel : Nat} {source : String} {inside : Machine}
    (told : .moment inside ∈ session.record fuel source) :
    ∀ bound ∈ session.settings.maxDepth, inside.depth ≤ max session.machine.depth bound := by
  rcases record_spec fuel source session with ⟨nothing, -⟩ | ⟨program, events, result, done, same, -⟩
  · rw [nothing] at told
    cases told
  · have bounded := ((Recorded.keepsDepth_respected session.settings).executeTop fuel session.globals
      program { session.machine with printed := #[] }).bounded inside
    rw [done] at bounded
    rw [same] at told
    exact bounded told

variable {settings : Settings} {past : List Event}

theorem History.depth_eq_zero (history : History settings past session) :
    session.machine.depth = 0 := by
  induction history with
  | start => rfl
  | step history ran ih => exact (Step.run ran).depth_eq.trans ih

/-- In a session that starts at depth zero the limit alone is the bound. -/
theorem History.record_bounded (history : History settings past session) {fuel : Nat}
    {source : String} {inside : Machine} (told : .moment inside ∈ session.record fuel source) :
    ∀ bound ∈ settings.maxDepth, inside.depth ≤ bound := by
  intro bound within
  have below := Session.record_bounded told bound (history.settings_eq.symm ▸ within)
  rwa [history.depth_eq_zero, Nat.zero_max] at below

theorem History.past_bounded (history : History settings past session) :
    ∀ inside, .moment inside ∈ past → ∀ bound ∈ settings.maxDepth, inside.depth ≤ bound := by
  induction history with
  | start =>
    intro inside told bound _
    cases List.mem_singleton.mp told
    exact Nat.zero_le bound
  | step history ran ih =>
    intro inside told
    rcases List.mem_append.mp told with early | late
    · exact ih inside early
    · exact history.record_bounded late

/-- Evaluating, executing and calling end at the depth they began at, from any machine and however
they end, and are never deeper than the limit, or than they were at first. So every step of a session
leaves the depth as it was, and all of a session stays within the limit. -/
theorem depth_balanced_and_bounded (settings : Settings) :
    (∀ fuel machine,
      (∀ scope expr, Recorded.KeepsDepth settings.maxDepth
        (Recorded.evaluate settings scope fuel expr)
        (Interpreter.evaluate settings scope fuel expr) machine) ∧
      (∀ scope stmt, Recorded.KeepsDepth settings.maxDepth
        (Recorded.execute settings scope fuel stmt)
        (Interpreter.execute settings scope fuel stmt) machine) ∧
      (∀ callee arguments line, Recorded.KeepsDepth settings.maxDepth
        (Recorded.call settings fuel callee arguments line)
        (Interpreter.call settings fuel callee arguments line) machine) ∧
      ∀ scope program, Recorded.KeepsDepth settings.maxDepth
        (Recorded.executeTop settings scope fuel program)
        (Interpreter.executeTop settings scope fuel program) machine) ∧
    (∀ session next : Session, session.Step next → next.machine.depth = session.machine.depth) ∧
    ∀ past session, History settings past session → session.machine.depth = 0 ∧
      ∀ fuel source inside, .moment inside ∈ past ++ session.record fuel source →
        ∀ bound ∈ settings.maxDepth, inside.depth ≤ bound := by
  have keeps := Recorded.keepsDepth_respected settings
  refine ⟨fun fuel machine => ⟨?_, ?_, ?_, ?_⟩, fun _ _ => Step.depth_eq, ?_⟩
  · exact fun scope expr => (keeps.everywhere fuel).evaluate scope expr machine
  · exact fun scope stmt => (keeps.everywhere fuel).execute scope stmt machine
  · exact fun callee arguments line =>
      (keeps.everywhere fuel).call callee line (Carrier.any arguments) machine
  · exact fun scope program => keeps.executeTop fuel scope program machine
  · refine fun past session history => ⟨history.depth_eq_zero, fun fuel source inside told => ?_⟩
    rcases List.mem_append.mp told with early | late
    · exact history.past_bounded inside early
    · exact history.record_bounded late

/-- A function without end gets as deep as it may, and the session is at depth zero again when it
failed. -/
theorem depth_balanced_and_bounded_endless :
    let settings : Settings := ⟨some 2, steadyClock⟩
    let session := start settings
    let source := "fun f() \x7b f(); \x7d f();"
    ∃ outcome, session.Yields source outcome ∧
      outcome.result.map Diagnostic.code = [.stackOverflow] ∧ outcome.session.machine.depth = 0 ∧
      (∃ inside, .moment inside ∈ session.record 40 source ∧ inside.depth = 2) ∧
      ∀ fuel inside, .moment inside ∈ outcome.session.record fuel source → inside.depth ≤ 2 := by
  intro settings session source
  obtain ⟨outcome, ⟨fuel, ran⟩, -, failed⟩ := yields_of_shown (show shown
    (session.run 40 source) = some ("", [.stackOverflow]) by decide +kernel)
  have history : History settings _ outcome.session := .step .start ran
  obtain ⟨-, -, sessions⟩ := depth_balanced_and_bounded settings
  obtain ⟨level, bounded⟩ := sessions _ _ history
  refine ⟨outcome, ⟨fuel, ran⟩, failed, level, ?_, ?_⟩
  · have deep : ((session.record 40 source).any fun
        | .moment inside => inside.depth == 2
        | _ => false) = true := by decide +kernel
    obtain ⟨event, told, reached⟩ := List.any_eq_true.mp deep
    cases event with
    | moment inside => exact ⟨inside, told, eq_of_beq reached⟩
    | gives | makes => cases reached
  · exact fun fuel inside told =>
      bounded fuel source inside (List.mem_append_right _ told) 2 rfl

end Session
end Lox
