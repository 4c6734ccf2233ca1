import Mathlib.Data.List.Forall2
import Lox.Proofs.CleanPrefix
import Lox.Proofs.PlaceErasure
import Lox.Proofs.RunFuel
import Lox.Proofs.SourceSeam

/-! Sources that are run one after another, and the same sources run as one. The second part of the
whole stands further down, so that it reports other lines, and prints behind the first. -/

namespace Lox.Run

variable {α β : Type}

/-- The machine, had it printed some lines before. -/
def behind (lines : Array String) (machine : Machine) : Machine :=
  { machine with printed := lines ++ machine.printed }

def endsBehind (lines : Array String) :
    EStateM.Result Stop Machine α → EStateM.Result Stop Machine α
  | .ok value machine => .ok value (behind lines machine)
  | .error stop machine => .error stop (behind lines machine)

/-- What was printed before does not matter to a run. -/
def Oblivious (run other : Run α) : Prop :=
  run = other ∧ ∀ lines machine, run (behind lines machine) = endsBehind lines (run machine)

theorem Oblivious.bind {first second : Run α} {next later : α → Run β}
    (oblivious : Oblivious first second) (goesOn : ∀ value, Oblivious (next value) (later value)) :
    Oblivious (first >>= next) (second >>= later) := by
  refine ⟨by rw [oblivious.1, funext fun value => (goesOn value).1], fun lines machine => ?_⟩
  have before := oblivious.2 lines machine
  cases ran : first machine with
  | error stop middle =>
    rw [ran] at before
    rw [Sequencing.bind_error ran, Sequencing.bind_error before]
    rfl
  | ok value middle =>
    rw [ran] at before
    rw [Sequencing.bind_ok ran, Sequencing.bind_ok before]
    exact (goesOn value).2 lines middle

theorem Oblivious.inFrame (frame : Frame) {body other : Run Signal}
    (oblivious : Oblivious body other) :
    Oblivious (Run.inFrame frame body) (Run.inFrame frame other) := by
  refine ⟨by rw [oblivious.1], fun lines machine => ?_⟩
  have deeper := oblivious.2 lines { machine with depth := machine.depth + 1 }
  have same : { behind lines machine with depth := (behind lines machine).depth + 1 } =
      behind lines { machine with depth := machine.depth + 1 } := rfl
  simp only [Run.inFrame, same, deeper]
  cases body { machine with depth := machine.depth + 1 } with
  | ok signal after =>
    simp only [endsBehind]
    cases finish frame signal <;> rfl
  | error stop after => cases stop <;> rfl

open Proofs.RunCongruence in
theorem Oblivious.respected (settings : Settings) : Respected settings settings 0 Oblivious where
  exhausted run same := by
    rw [same rfl]
    exact ⟨rfl, fun _ _ => rfl⟩
  pure _ := ⟨rfl, fun _ _ => rfl⟩
  bind := .bind
  fail _ _ := ⟨rfl, fun _ _ => rfl⟩
  get line name scope := by
    refine ⟨rfl, fun lines machine => ?_⟩
    simp only [Run.get, behind]
    split <;> rfl
  assign line name value scope := by
    refine ⟨rfl, fun lines machine => ?_⟩
    simp only [Run.assign, behind]
    split <;> rfl
  bindName name value scope := by
    refine ⟨rfl, fun lines machine => ?_⟩
    by_cases made : scope < machine.heap.size <;> simp [Run.bind, behind, endsBehind, made]
  enter bindings parent := by
    refine ⟨rfl, fun lines machine => ?_⟩
    by_cases made : parent < machine.heap.size <;> simp [Run.enter, behind, endsBehind, made]
  print value := ⟨rfl, fun lines machine => by simp [Run.print, behind, endsBehind]⟩
  newFunction := ⟨rfl, fun _ _ => rfl⟩
  native native := by
    cases native
    exact ⟨rfl, fun _ _ => rfl⟩
  mayEnter line := by
    refine ⟨rfl, fun lines machine => ?_⟩
    cases limit : settings.maxDepth with
    | none => simp [Run.mayEnter, limit, endsBehind]
    | some bound =>
      by_cases deep : bound ≤ machine.depth <;>
        simp [Run.mayEnter, limit, behind, endsBehind, deep]
  inFrame := .inFrame

end Lox.Run

namespace Lox.Interpreter

theorem executeTop_append (settings : Settings) (scope : ScopeId) (fuel : Nat)
    (first second : List (Stmt Place)) : executeTop settings scope fuel (first ++ second) =
      executeTop settings scope fuel first >>= fun _ => executeTop settings scope fuel second := by
  induction first with
  | nil => rfl
  | cons stmt rest ih =>
    rw [List.cons_append, executeTop, executeTop, bind_assoc, ih]
    congr 1
    funext signal
    cases signal <;> rfl

end Lox.Interpreter

namespace Lox

/-- Two programs with a line break between them are a program. The first is its first part, with its
places, and the second is the rest of it, at other places. -/
theorem Program.ofSource_newline {first second : String} {before after : Program}
    (parsed : Program.ofSource first = .ok before) (parsed' : Program.ofSource second = .ok after) :
    ∃ moved, Program.ofSource (first ++ "\n" ++ second) = .ok (before ++ moved) ∧
      moved.map Stmt.bare = after.map Stmt.bare := by
  obtain ⟨lexed, clean, rfl⟩ := ofSource_eq_ok.mp parsed
  obtain ⟨lexed', clean', rfl⟩ := ofSource_eq_ok.mp parsed'
  obtain ⟨⟨later, own, kinds⟩, faults⟩ := Scan.ofSource_newline lexed second
  obtain ⟨line, offset, tokens⟩ := Scan.tokens_eq first
  obtain ⟨line', offset', tokens'⟩ := Scan.tokens_eq second
  obtain ⟨line'', offset'', joined⟩ := Scan.tokens_eq (first ++ "\n" ++ second)
  rw [own, List.append_assoc] at joined
  rw [tokens] at clean ⊢
  have inner : ∀ token ∈ Scan.own first, token.kind ≠ .eof := by
    simpa using Scan.own_ne_eof first
  have same : (later ++ [Token.endOfInput line'' offset'']).map Token.kind =
      (Scan.ofSource second).tokens.map Token.kind := by
    rw [tokens', List.map_append, List.map_append, kinds]
    rfl
  obtain ⟨none, moved, program, bare⟩ :=
    Parsed.ofTokens_joined rfl inner (Scan.tokens_closed second) same clean clean'
  have unharmed : (Scan.ofSource (first ++ "\n" ++ second)).errors = [] := by
    simpa [lexed'] using faults
  rw [← joined] at none program
  exact ⟨moved, ofSource_eq_ok.mpr ⟨unharmed, none, program⟩, bare⟩

/-- Two diagnostics that differ only in the lines they name. -/
structure Diagnostic.SameButLines (first second : Diagnostic) : Prop where
  code : first.code = second.code
  message : first.message = second.message
  location : first.location = second.location
  notes : List.Forall₂ (fun note other => ∃ (function : String) (line moved : Nat),
    note = s!"in call to '{function}' at line {line}" ∧
      other = s!"in call to '{function}' at line {moved}") first.notes second.notes

theorem RuntimeError.sameButLines {first second : RuntimeError} (same : first.plain = second.plain) :
    first.diagnostic.SameButLines second.diagnostic := by
  obtain ⟨fault, line, frames⟩ := first
  obtain ⟨fault', line', frames'⟩ := second
  obtain ⟨rfl, frames_eq⟩ : fault = fault' ∧ frames.map Frame.plain = frames'.map Frame.plain := by
    simpa [plain] using same
  have calls := congrArg Array.toList frames_eq
  simp only [Array.toList_map] at calls
  have alike : List.Forall₂ Eq (frames.toList.map Frame.plain) (frames'.toList.map Frame.plain) := by
    rw [calls]
    exact List.forall₂_refl _
  rw [List.forall₂_map_left_iff, List.forall₂_map_right_iff] at alike
  refine ⟨rfl, rfl, rfl, ?_⟩
  rw [diagnostic, diagnostic, List.forall₂_map_left_iff, List.forall₂_map_right_iff]
  refine alike.imp fun frame other named => ?_
  have function : frame.plain.function = other.plain.function := congrArg Frame.function named
  have function : frame.function = other.function := function
  exact ⟨frame.function, frame.line, other.line, rfl, by rw [function]⟩

/-- The session without places, and without what its last step printed. -/
def Session.plain (session : Session) : Session :=
  { session with machine := { session.machine.plain with printed := #[] } }

/-- What comes of two steps in one: the output of both, and the diagnostics of the second at other
lines. -/
structure Outcome.Continues (first second whole : Outcome (List Diagnostic)) : Prop where
  printed : whole.printed = first.printed ++ second.printed
  diagnostics : List.Forall₂ Diagnostic.SameButLines second.result whole.result
  session : whole.session.plain = second.session.plain

namespace Run

variable {α : Type}

theorem endsBehind_eq_ended {lines : Array String} {given : EStateM.Result Stop Machine α}
    {result : Except RuntimeError α} {machine : Machine} :
    endsBehind lines given = ended result machine ↔
      ∃ last, given = ended result last ∧ behind lines last = machine := by
  cases given <;> cases result <;> simp [endsBehind, ended, and_assoc]

theorem stripped_eq_ended {given : EStateM.Result Stop Machine α} {result : Except RuntimeError α}
    {machine : Machine} (same : stripped id (ended result machine) = stripped id given) :
    ∃ other last, given = ended other last ∧ last.plain = machine.plain ∧
      result.mapError RuntimeError.plain = other.mapError RuntimeError.plain := by
  cases given with
  | ok value last =>
    cases result with
    | error => cases same
    | ok own =>
      obtain ⟨rfl, machines⟩ := EStateM.Result.ok.inj same
      exact ⟨.ok own, last, rfl, machines.symm, rfl⟩
  | error stop last =>
    cases result with
    | ok => cases same
    | error own =>
      obtain ⟨stops, machines⟩ := EStateM.Result.error.inj same
      cases stop with
      | failed error =>
        exact ⟨.error error, last, rfl, machines.symm, congrArg Except.error (Stop.failed.inj stops)⟩
      | exhausted | dangling => cases stops

end Run

namespace Session
open Run Interpreter

/-- Programs with the same trees give the same, at other lines. -/
theorem interpret_of_bare {session : Session} {fuel : Nat} {first second : Program}
    {outcome : Outcome (Except RuntimeError Unit)}
    (same : first.map Stmt.bare = second.map Stmt.bare)
    (ran : session.interpret fuel first = .ok outcome) :
    ∃ other, session.interpret fuel second = .ok other ∧ other.printed = outcome.printed ∧
      other.session.plain = outcome.session.plain ∧
      outcome.result.mapError RuntimeError.plain = other.result.mapError RuntimeError.plain := by
  obtain ⟨machine, ended, printed, after⟩ := perform_eq_ok.mp ran
  have alike := executeTop_of_bare session.settings session.globals fuel same
    { session.machine with printed := #[] }
  rw [ended] at alike
  obtain ⟨result, last, ended', machines, results⟩ := stripped_eq_ended alike
  refine ⟨⟨result, printedText last.printed, { session with machine := last }⟩,
    perform_eq_ok.mpr ⟨last, ended', rfl, rfl⟩, ?_, ?_, results⟩
  · have lines : last.plain.printed = machine.plain.printed := congrArg Machine.printed machines
    have lines : last.printed = machine.printed := lines
    rw [printed, lines]
  · rw [after, plain, plain, machines]

/-- A program behind another prints behind it. -/
theorem interpret_append {session next : Session} {fuel : Nat} {before more : Program}
    {printed : String} (first : session.interpret fuel before = .ok ⟨.ok (), printed, next⟩) :
    (∀ whole, session.interpret fuel (before ++ more) = .ok whole →
      ∃ rest, next.interpret fuel more = .ok rest) ∧
    (∀ rest, next.interpret fuel more = .ok rest →
      ∃ whole, session.interpret fuel (before ++ more) = .ok whole ∧
        whole.printed = printed ++ rest.printed ∧ whole.session.plain = rest.session.plain ∧
          whole.result = rest.result) := by
  obtain ⟨machine, ran, rfl, rfl⟩ := perform_eq_ok.mp first
  have oblivious := (Oblivious.respected session.settings).executeTop fuel session.globals more
  have continued : executeTop session.settings session.globals fuel (before ++ more)
      { session.machine with printed := #[] } = endsBehind machine.printed
        (executeTop session.settings session.globals fuel more { machine with printed := #[] }) := by
    rw [executeTop_append, Sequencing.bind_ok ran, ← oblivious.2, behind, Array.append_empty]
  constructor
  · intro whole ran
    obtain ⟨last, ended, -, -⟩ := perform_eq_ok.mp ran
    rw [continued] at ended
    obtain ⟨last, ended, -⟩ := endsBehind_eq_ended.mp ended
    exact ⟨⟨whole.result, printedText last.printed, { session with machine := last }⟩,
      perform_eq_ok.mpr ⟨last, ended, rfl, rfl⟩⟩
  · intro rest ran
    obtain ⟨last, ended, shown, after⟩ := perform_eq_ok.mp ran
    have ended' := continued.trans (endsBehind_eq_ended.mpr ⟨last, ended, rfl⟩)
    let far := behind machine.printed last
    refine ⟨⟨rest.result, printedText far.printed, { session with machine := far }⟩,
      perform_eq_ok.mpr ⟨far, ended', rfl, rfl⟩, ?_, ?_, rfl⟩
    · simp [shown, printedText, far, behind, String.join_append]
    · rw [after]
      rfl

theorem interpret_append_failed {session next : Session} {fuel : Nat} {before more : Program}
    {printed : String} {error : RuntimeError}
    (first : session.interpret fuel before = .ok ⟨.error error, printed, next⟩) :
    session.interpret fuel (before ++ more) = .ok ⟨.error error, printed, next⟩ := by
  obtain ⟨machine, ran, shown, after⟩ := perform_eq_ok.mp first
  refine perform_eq_ok.mpr ⟨machine, ?_, shown, after⟩
  rw [executeTop_append, Sequencing.bind_error ran]
  rfl

/-- What a program in front of another does by itself, if both together come to an end. -/
theorem interpret_front {session : Session} {fuel : Nat} {before more : Program}
    {whole : Outcome (Except RuntimeError Unit)}
    (ran : session.interpret fuel (before ++ more) = .ok whole) :
    ∃ first, session.interpret fuel before = .ok first := by
  obtain ⟨machine, ended, -, -⟩ := perform_eq_ok.mp ran
  rw [executeTop_append] at ended
  cases front : executeTop session.settings session.globals fuel before
      { session.machine with printed := #[] } with
  | ok value last =>
    exact ⟨⟨.ok value, printedText last.printed, { session with machine := last }⟩,
      perform_eq_ok.mpr ⟨last, front, rfl, rfl⟩⟩
  | error stop last =>
    rw [Sequencing.bind_error front] at ended
    obtain ⟨error, -, rfl, -⟩ := ended_eq_error ended.symm
    exact ⟨⟨.error error, printedText last.printed, { session with machine := last }⟩,
      perform_eq_ok.mpr ⟨last, front, rfl, rfl⟩⟩

theorem diagnose_sameButLines {first second : Outcome (Except RuntimeError Unit)}
    (same : first.result.mapError RuntimeError.plain = second.result.mapError RuntimeError.plain) :
    List.Forall₂ Diagnostic.SameButLines (diagnose first).result (diagnose second).result := by
  obtain ⟨result, printed, after⟩ := first
  obtain ⟨other, printed', after'⟩ := second
  cases result with
  | ok =>
    cases other with
    | ok => exact .nil
    | error => cases same
  | error error =>
    cases other with
    | ok => cases same
    | error error' => exact .cons (RuntimeError.sameButLines (Except.error.inj same)) .nil

/-- Two sources that are programs are one program with a line break between them. Run as one, they
give what they give one after the other: both outputs and the diagnostics of the second, at other
lines, or just what the first gives if it ends with an error. -/
theorem runs_joined_as_in_turn (session : Session) {first second : String} {before after : Program}
    (parsed : Program.ofSource first = .ok before) (parsed' : Program.ofSource second = .ok after) :
    (∃ program, Program.ofSource (first ++ "\n" ++ second) = .ok program) ∧
    (∀ whole, session.Yields (first ++ "\n" ++ second) whole →
      ∃ outcome, session.Yields first outcome) ∧
    ∀ outcome, session.Yields first outcome →
      (outcome.result = [] →
        (∀ rest, outcome.session.Yields second rest → ∃ whole,
          session.Yields (first ++ "\n" ++ second) whole ∧ outcome.Continues rest whole) ∧
        (∀ whole, session.Yields (first ++ "\n" ++ second) whole → ∃ rest,
          outcome.session.Yields second rest ∧ outcome.Continues rest whole)) ∧
      (outcome.result ≠ [] → session.Yields (first ++ "\n" ++ second) outcome) := by
  obtain ⟨moved, joined, bare⟩ := Program.ofSource_newline parsed parsed'
  refine ⟨⟨_, joined⟩, ?_, ?_⟩
  · rintro whole ⟨fuel, ran⟩
    obtain ⟨result, together, rfl⟩ := (run_accepted joined).mp ran
    obtain ⟨front, alone⟩ := interpret_front together
    exact ⟨_, fuel, (run_accepted parsed).mpr ⟨front, alone, rfl⟩⟩
  · rintro outcome ⟨fuel, ran⟩
    obtain ⟨⟨result, printed, next⟩, alone, rfl⟩ := (run_accepted parsed).mp ran
    cases result with
    | error error =>
      refine ⟨fun clean => (List.cons_ne_nil _ _ clean).elim, fun _ => ?_⟩
      exact ⟨fuel, (run_accepted joined).mpr ⟨_, interpret_append_failed alone, rfl⟩⟩
    | ok value =>
      refine ⟨fun _ => ?_, fun failed => absurd rfl failed⟩
      have continues (rest : Outcome (List Diagnostic)) (ended : next.Yields second rest) :
          ∃ whole, session.Yields (first ++ "\n" ++ second) whole ∧
            (diagnose ⟨.ok value, printed, next⟩).Continues rest whole := by
        obtain ⟨larger, ran⟩ := ended
        obtain ⟨last, behind, rfl⟩ := (run_accepted parsed').mp ran
        have alone := interpret_more (Nat.le_max_left fuel larger) alone
        have behind := interpret_more (Nat.le_max_right fuel larger) behind
        obtain ⟨other, elsewhere, shown, machines, results⟩ := interpret_of_bare bare.symm behind
        obtain ⟨whole, together, shown', machines', result⟩ :=
          (interpret_append alone).2 other elsewhere
        refine ⟨_, ⟨_, (run_accepted joined).mpr ⟨whole, together, rfl⟩⟩, ?_, ?_, ?_⟩
        · exact shown'.trans (congrArg (printed ++ ·) shown)
        · exact diagnose_sameButLines (result ▸ results)
        · exact machines'.trans machines
      refine ⟨continues, ?_⟩
      rintro whole ⟨larger, ran⟩
      obtain ⟨result, together, same⟩ := (run_accepted joined).mp ran
      have alone := interpret_more (Nat.le_max_left fuel larger) alone
      have together := interpret_more (Nat.le_max_right fuel larger) together
      obtain ⟨last, behind⟩ := (interpret_append alone).1 result together
      obtain ⟨other, elsewhere, -⟩ := interpret_of_bare bare behind
      have ended : next.Yields second (diagnose other) :=
        ⟨_, (run_accepted parsed').mpr ⟨other, elsewhere, rfl⟩⟩
      obtain ⟨whole', again, continued⟩ := continues _ ended
      rw [Yields.unique ⟨larger, ran⟩ again]
      exact ⟨_, ended, continued⟩

/-- The second source calls a function that the first declares, and fails in it. -/
theorem runs_joined_as_in_turn_failing_call :
    let session := Session.start ⟨none, Session.steadyClock⟩
    let first := "fun f() \x7b return x; \x7d if (nil == nil) print nil;"
    ∃ outcome rest whole, session.Yields first outcome ∧ outcome.session.Yields "f();" rest ∧
      session.Yields (first ++ "\n" ++ "f();") whole ∧ outcome.Continues rest whole ∧
        whole.printed = "nil\n" ∧ whole.result.map Diagnostic.code = [.undefinedVariable] := by
  intro session first
  have accepted : (Program.ofSource first).toBool = true := by decide +kernel
  have accepted' : (Program.ofSource "f();").toBool = true := by decide +kernel
  obtain ⟨before, parsed⟩ := Program.exists_of_toBool accepted
  obtain ⟨after, parsed'⟩ := Program.exists_of_toBool accepted'
  obtain ⟨outcome, ran, -, codes⟩ := yields_of_shown
    (show shown (session.run 30 first) = some ("nil\n", []) by decide +kernel)
  obtain ⟨whole, together, printed, failed⟩ := yields_of_shown
    (show shown (session.run 30 (first ++ "\n" ++ "f();")) = some ("nil\n", [.undefinedVariable]) by
      decide +kernel)
  obtain ⟨-, -, inTurn⟩ := runs_joined_as_in_turn session parsed parsed'
  obtain ⟨rest, ended, continued⟩ :=
    ((inTurn outcome ran).1 (List.map_eq_nil_iff.mp codes)).2 whole together
  exact ⟨outcome, rest, whole, ran, ended, together, continued, printed, failed⟩

end Session
end Lox
