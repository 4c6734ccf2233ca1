import Lox.Proofs.RunCongruence
import Lox.Session

/-! A run that does not use up its budget has the same outcome under every larger one. So the
outcome of a run, when there is one, does not depend on the budget it was found with. -/

namespace Lox.Proofs.RunFuel
open Interpreter RunCongruence

def Exhausted {α : Type} (result : EStateM.Result Stop Machine α) : Prop :=
  ∃ machine, result = .error .exhausted machine

/-- The second run does what the first does, unless the first gives up. -/
def Refines {α : Type} (first second : Run α) : Prop :=
  ∀ machine, Exhausted (first machine) ∨ first machine = second machine

theorem Refines.refl {α : Type} (run : Run α) : Refines run run := fun _ => .inr rfl

theorem Refines.bind {α β : Type} {first second : Run α} {next later : α → Run β}
    (same : Refines first second) (rest : ∀ value, Refines (next value) (later value)) :
    Refines (first >>= next) (second >>= later) := by
  intro machine
  rcases same machine with ⟨last, stopped⟩ | same
  · exact .inl ⟨last, Sequencing.bind_error stopped⟩
  · rcases Sequencing.bind_alike same with ⟨value, middle, ran, ran'⟩ | same
    · rw [ran, ran']
      exact rest value middle
    · exact .inr same

theorem Refines.inFrame (frame : Frame) {body second : Run Signal} (same : Refines body second) :
    Refines (Run.inFrame frame body) (Run.inFrame frame second) := by
  intro machine
  rcases same { machine with depth := machine.depth + 1 } with ⟨last, stopped⟩ | same
  · exact .inl ⟨{ last with depth := last.depth - 1 }, by simp only [Run.inFrame, stopped]⟩
  · exact .inr (by simp only [Run.inFrame, same])

theorem respected (settings : Settings) (extra : Nat) :
    Respected settings settings extra Refines where
  exhausted _ _ machine := .inl ⟨machine, rfl⟩
  pure _ := .refl _
  bind := .bind
  fail _ _ := .refl _
  get _ _ _ := .refl _
  assign _ _ _ _ := .refl _
  bindName _ _ _ := .refl _
  enter _ _ := .refl _
  print _ := .refl _
  newFunction := .refl _
  native _ := .refl _
  mayEnter _ := .refl _
  inFrame := .inFrame

/-- Every part of the evaluator refines itself under a larger budget. -/
theorem more (settings : Settings) {fuel larger : Nat} (enough : fuel ≤ larger) :
    Related settings settings Refines fuel larger := by
  obtain ⟨extra, rfl⟩ := Nat.exists_eq_add_of_le enough
  exact (respected settings extra).everywhere fuel

theorem Refines.ended {α : Type} {first second : Run α} (same : Refines first second)
    {machine last : Machine} {result : Except RuntimeError α}
    (ran : first machine = Run.ended result last) : second machine = Run.ended result last := by
  rcases same machine with ⟨_, stopped⟩ | same
  · rw [ran] at stopped
    cases result <;> cases stopped
  · exact same.symm.trans ran

theorem executeTop_more (settings : Settings) {fuel larger : Nat} (enough : fuel ≤ larger)
    (scope : ScopeId) (stmts : List (Stmt Place)) :
    Refines (executeTop settings scope fuel stmts) (executeTop settings scope larger stmts) := by
  obtain ⟨extra, rfl⟩ := Nat.exists_eq_add_of_le enough
  exact (respected settings extra).executeTop fuel scope stmts

end Lox.Proofs.RunFuel

namespace Lox

theorem Program.ofSource_eq_ok {source : String} {program : Program} :
    Program.ofSource source = .ok program ↔ (Scan.ofSource source).errors = [] ∧
      (Parsed.ofTokens (Scan.ofSource source).tokens).errors = [] ∧
        (Parsed.ofTokens (Scan.ofSource source).tokens).program = program := by
  simp only [Program.ofSource]
  split
  next none =>
    obtain ⟨lexed, parsed⟩ := List.append_eq_nil_iff.mp none
    simp [List.map_eq_nil_iff.mp lexed, List.map_eq_nil_iff.mp parsed]
  next some =>
    constructor
    · intro impossible
      cases impossible
    · rintro ⟨lexed, parsed, -⟩
      exact absurd (by rw [lexed, parsed]; rfl) some

theorem Program.exists_of_toBool {source : String} (accepted : (ofSource source).toBool = true) :
    ∃ program, Program.ofSource source = .ok program := by
  cases parsed : Program.ofSource source with
  | ok program => exact ⟨program, rfl⟩
  | error diagnostics => simp [parsed, Except.toBool] at accepted

end Lox

namespace Lox.Session
open Proofs.RunFuel

/-- A run of the machine has an outcome just when the action comes to an end. -/
theorem perform_eq_ok {α : Type} {action : Run α} {session : Session}
    {outcome : Outcome (Except RuntimeError α)} :
    session.perform action = .ok outcome ↔ ∃ machine,
      action { session.machine with printed := #[] } = Run.ended outcome.result machine ∧
        outcome.printed = printedText machine.printed ∧
          outcome.session = { session with machine } := by
  obtain ⟨result, printed, after⟩ := outcome
  simp only [perform]
  cases ran : action { session.machine with printed := #[] } with
  | ok value machine =>
    cases result <;> simp [Run.ended, and_assoc, eq_comm]
  | error stop machine =>
    cases stop <;> cases result <;> simp [Run.ended, and_assoc, eq_comm]

theorem interpret_more {session : Session} {program : Program} {fuel larger : Nat}
    {outcome : Outcome (Except RuntimeError Unit)} (enough : fuel ≤ larger)
    (ran : session.interpret fuel program = .ok outcome) :
    session.interpret larger program = .ok outcome := by
  obtain ⟨machine, ended, rest⟩ := perform_eq_ok.mp ran
  exact perform_eq_ok.mpr ⟨machine, (executeTop_more _ enough _ _).ended ended, rest⟩

/-- The diagnostics that the result of a program comes down to. -/
def diagnose (outcome : Outcome (Except RuntimeError Unit)) : Outcome (List Diagnostic) where
  result := match outcome.result with
    | .ok () => []
    | .error error => [error.diagnostic]
  printed := outcome.printed
  session := outcome.session

theorem run_rejected {source : String} {diagnostics : List Diagnostic}
    (rejected : Program.ofSource source = .error diagnostics) (session : Session) (fuel : Nat) :
    session.run fuel source = .ok ⟨diagnostics, "", session⟩ := by
  simp only [run, rejected]

theorem run_accepted {source : String} {program : Program}
    (accepted : Program.ofSource source = .ok program) {session : Session} {fuel : Nat}
    {outcome : Outcome (List Diagnostic)} :
    session.run fuel source = .ok outcome ↔
      ∃ ran, session.interpret fuel program = .ok ran ∧ outcome = diagnose ran := by
  simp only [run, accepted]
  cases done : session.interpret fuel program with
  | error stuck => simp
  | ok ran =>
    obtain ⟨result, printed, after⟩ := ran
    cases result <;> simp [diagnose, eq_comm]

/-- The outcome of running a source does not change with the budget. -/
theorem run_more {session : Session} {source : String} {fuel larger : Nat}
    {outcome : Outcome (List Diagnostic)} (enough : fuel ≤ larger)
    (ran : session.run fuel source = .ok outcome) :
    session.run larger source = .ok outcome := by
  cases parsed : Program.ofSource source with
  | error diagnostics =>
    rw [run_rejected parsed] at ran ⊢
    exact ran
  | ok program =>
    obtain ⟨result, done, rfl⟩ := (run_accepted parsed).mp ran
    exact (run_accepted parsed).mpr ⟨result, interpret_more enough done, rfl⟩

/-- Running a source comes to an end with an outcome, under some budget and so under every larger
one. -/
def Yields (session : Session) (source : String) (outcome : Outcome (List Diagnostic)) : Prop :=
  ∃ fuel, session.run fuel source = .ok outcome

theorem Yields.unique {session : Session} {source : String}
    {outcome other : Outcome (List Diagnostic)} (first : session.Yields source outcome)
    (second : session.Yields source other) : outcome = other := by
  obtain ⟨fuel, ran⟩ := first
  obtain ⟨larger, again⟩ := second
  have left := run_more (Nat.le_max_left fuel larger) ran
  have right := run_more (Nat.le_max_right fuel larger) again
  exact Except.ok.inj (left.symm.trans right)

theorem yields_of_map {α : Type} {session : Session} {fuel : Nat} {source : String}
    {view : Outcome (List Diagnostic) → α} {seen : α}
    (ran : (session.run fuel source).toOption.map view = some seen) :
    ∃ outcome, session.Yields source outcome ∧ view outcome = seen := by
  cases done : session.run fuel source with
  | error stuck =>
    rw [done] at ran
    cases ran
  | ok outcome =>
    rw [done] at ran
    exact ⟨outcome, ⟨fuel, done⟩, Option.some.inj ran⟩

/-- What an outcome shows of itself. -/
def shown (result : Except Stuck (Outcome (List Diagnostic))) : Option (String × List Code) :=
  result.toOption.map fun outcome => (outcome.printed, outcome.result.map Diagnostic.code)

theorem yields_of_shown {session : Session} {fuel : Nat} {source printed : String}
    {codes : List Code} (ran : shown (session.run fuel source) = some (printed, codes)) :
    ∃ outcome, session.Yields source outcome ∧ outcome.printed = printed ∧
      outcome.result.map Diagnostic.code = codes := by
  obtain ⟨outcome, yields, seen⟩ := yields_of_map ran
  exact ⟨outcome, yields, Prod.mk.inj seen⟩

end Lox.Session
