import Lox.Proofs.RunFuel

/-! The limit on the depth of calls only cuts runs short. Under a looser limit a run does the same
steps; it differs from the first occasion on which the tighter limit stopped the other run, and from
there on it can only print more. -/

namespace Lox.Proofs.DepthLimit
open Interpreter RunCongruence

/-- The machine at the end of a run, however the run ended. -/
def last {α : Type} : EStateM.Result Stop Machine α → Machine
  | .ok _ machine | .error _ machine => machine

@[simp] theorem last_ended {α : Type} (result : Except RuntimeError α) (machine : Machine) :
    last (Run.ended result machine) = machine := by
  cases result <;> rfl

/-- The second machine has printed what the first has, and then maybe more. -/
def Extends (before after : Machine) : Prop := before.printed.toList <+: after.printed.toList

theorem Extends.refl (machine : Machine) : Extends machine machine := List.prefix_rfl

theorem Extends.trans {first second third : Machine} (before : Extends first second)
    (after : Extends second third) : Extends first third :=
  List.IsPrefix.trans before after

/-- Nothing printed is taken back. -/
def Grows {α : Type} (run : Run α) : Prop := ∀ machine, Extends machine (last (run machine))

theorem Grows.pure {α : Type} (value : α) : Grows (pure value) := fun machine => .refl machine

theorem Grows.bind {α β : Type} {first : Run α} {next : α → Run β} (grows : Grows first)
    (rest : ∀ value, Grows (next value)) : Grows (first >>= next) := by
  intro machine
  have before := grows machine
  cases ran : first machine with
  | ok value middle =>
    rw [ran] at before
    rw [Sequencing.bind_ok ran]
    exact before.trans (rest value middle)
  | error stop middle =>
    rw [ran] at before
    rwa [Sequencing.bind_error ran]

theorem Grows.inFrame (frame : Frame) {body : Run Signal} (grows : Grows body) :
    Grows (Run.inFrame frame body) := by
  intro machine
  have inside := grows { machine with depth := machine.depth + 1 }
  simp only [Run.inFrame]
  split <;> rename_i ran <;> rw [ran] at inside
  · split <;> exact inside
  · exact inside
  · exact inside

def Overflows : Stop → Prop
  | .failed error => ∃ limit, error.fault = .stackOverflow limit
  | .exhausted | .dangling => False

/-- The first run does what the second does, unless the depth of calls stops it before. -/
structure CutFrom {α : Type} (short whole : Run α) : Prop where
  grows : Grows whole
  agrees : ∀ machine, short machine = whole machine ∨
    ∃ stop stopped, short machine = .error stop stopped ∧ Overflows stop ∧
      Extends stopped (last (whole machine))

theorem CutFrom.refl {α : Type} {run : Run α} (grows : Grows run) : CutFrom run run :=
  ⟨grows, fun _ => .inl rfl⟩

theorem CutFrom.bind {α β : Type} {short whole : Run α} {next later : α → Run β}
    (cut : CutFrom short whole) (rest : ∀ value, CutFrom (next value) (later value)) :
    CutFrom (short >>= next) (whole >>= later) := by
  refine ⟨cut.grows.bind fun value => (rest value).grows, ?_⟩
  intro machine
  rcases cut.agrees machine with same | ⟨stop, stopped, ran, overflow, before⟩
  · rcases Sequencing.bind_alike same with ⟨value, middle, ran, ran'⟩ | same
    · rw [ran, ran']
      exact (rest value).agrees middle
    · exact .inl same
  · -- the whole run goes on where the short one stopped, and what it prints comes later
    refine .inr ⟨stop, stopped, Sequencing.bind_error ran, overflow, ?_⟩
    cases done : whole machine with
    | ok value middle =>
      rw [done] at before
      rw [Sequencing.bind_ok done]
      exact before.trans ((rest value).grows middle)
    | error _ middle =>
      rw [done] at before
      rwa [Sequencing.bind_error done]

theorem CutFrom.inFrame (frame : Frame) {short whole : Run Signal} (cut : CutFrom short whole) :
    CutFrom (Run.inFrame frame short) (Run.inFrame frame whole) := by
  refine ⟨cut.grows.inFrame frame, ?_⟩
  intro machine
  rcases cut.agrees { machine with depth := machine.depth + 1 } with
    same | ⟨stop, stopped, ran, overflow, before⟩
  · exact .inl (by simp only [Run.inFrame, same])
  · obtain ⟨error, rfl⟩ : ∃ error, stop = .failed error := by
      cases stop with
      | failed error => exact ⟨error, rfl⟩
      | exhausted | dangling => cases overflow
    refine .inr ⟨.failed (error.within frame), { stopped with depth := stopped.depth - 1 }, ?_,
      overflow, ?_⟩
    · simp only [Run.inFrame, ran]
    · simp only [Run.inFrame]
      split <;> rename_i done <;> rw [done] at before
      · split <;> exact before
      · exact before
      · exact before

/-- Whatever the second limit stops, the first stops too. -/
def Looser (limit wider : Option Nat) : Prop :=
  ∀ bound ∈ wider, ∃ own ∈ limit, own ≤ bound

theorem mayEnter_cut {settings other : Settings} (looser : Looser settings.maxDepth other.maxDepth)
    (line : Nat) : CutFrom (Run.mayEnter settings line) (Run.mayEnter other line) := by
  have grows : Grows (Run.mayEnter other line) := by
    intro machine
    simp only [Run.mayEnter]
    split
    · split <;> exact .refl machine
    · exact .refl machine
  refine ⟨grows, fun machine => ?_⟩
  cases tight : settings.maxDepth with
  | none =>
    cases loose : other.maxDepth with
    | none => exact .inl (by simp only [Run.mayEnter, tight, loose])
    | some bound =>
      obtain ⟨own, held, _⟩ := looser bound (by simp [loose])
      simp [tight] at held
  | some limit =>
    by_cases deep : limit ≤ machine.depth
    · refine .inr ⟨.failed (.ofFault line (.stackOverflow limit)), machine, ?_, ⟨limit, rfl⟩,
        grows machine⟩
      simp only [Run.mayEnter, tight, deep, ite_true]
    · have passes : Run.mayEnter other line machine = .ok () machine := by
        cases loose : other.maxDepth with
        | none => simp only [Run.mayEnter, loose]
        | some bound =>
          obtain ⟨own, held, below⟩ := looser bound (by simp [loose])
          obtain rfl : limit = own := by simpa [tight] using held
          have shallow : ¬ bound ≤ machine.depth := by omega
          simp only [Run.mayEnter, loose, shallow, ite_false]
      rw [passes]
      exact .inl (by simp only [Run.mayEnter, tight, deep, ite_false])

theorem respected {settings other : Settings} (looser : Looser settings.maxDepth other.maxDepth)
    (sameClock : settings.clock = other.clock) : Respected settings other 0 CutFrom where
  exhausted run same := by
    rw [same rfl]
    exact .refl fun machine => .refl machine
  pure value := .refl (.pure value)
  bind := .bind
  fail _ _ := .refl fun machine => .refl machine
  get line name scope := .refl fun machine => by
    simp only [Run.get]
    split <;> exact .refl machine
  assign line name value scope := .refl fun machine => by
    simp only [Run.assign]
    split <;> exact .refl machine
  bindName name value scope := .refl fun machine => by
    simp only [Run.bind]
    split <;> exact .refl machine
  enter bindings parent := .refl fun machine => by
    simp only [Run.enter]
    split <;> exact .refl machine
  print value := .refl fun machine => by simp [Run.print, last, Extends]
  newFunction := .refl fun machine => .refl machine
  native
    | .clock => by
      have same : Run.native settings .clock = Run.native other .clock := by
        simp only [Run.native, sameClock]
        rfl
      rw [same]
      exact .refl fun machine => .refl machine
  mayEnter := mayEnter_cut looser
  inFrame := .inFrame

theorem printedText_append {before after : Machine} (longer : Extends before after) :
    ∃ rest, Session.printedText after.printed = Session.printedText before.printed ++ rest := by
  obtain ⟨more, same⟩ := longer
  refine ⟨String.join (more.map (· ++ "\n")), ?_⟩
  simp only [Session.printedText, ← same, List.map_append, String.join_append]

/-- Some diagnostic says that calls were nested too deep. -/
def Overflowed (diagnostics : List Diagnostic) : Prop :=
  ∃ diagnostic ∈ diagnostics, diagnostic.code = .stackOverflow

theorem overflowed_iff (error : RuntimeError) :
    Overflowed [error.diagnostic] ↔ Overflows (.failed error) := by
  simp only [Overflowed, List.mem_singleton, exists_eq_left, RuntimeError.diagnostic, Overflows]
  cases error.fault <;> simp [RuntimeFault.code]

end Lox.Proofs.DepthLimit

namespace Lox
open Proofs.DepthLimit

/-- The session with another limit on the depth of its calls. -/
def Session.limited (limit : Option Nat) (session : Session) : Session :=
  { session with settings := { session.settings with maxDepth := limit } }

def Outcome.limited {α : Type} (limit : Option Nat) (outcome : Outcome α) : Outcome α :=
  { outcome with session := outcome.session.limited limit }

namespace Session

theorem interpret_cut (session : Session) (program : Program) {limit wider : Option Nat}
    (looser : Looser limit wider) {fuel : Nat} {outcome : Outcome (Except RuntimeError Unit)}
    (ran : (session.limited limit).interpret fuel program = .ok outcome) :
    (session.limited wider).interpret fuel program = .ok (outcome.limited wider) ∨
      (∃ error, outcome.result = .error error ∧ Overflows (.failed error)) ∧
        ∀ other, (session.limited wider).interpret fuel program = .ok other →
          ∃ rest, other.printed = outcome.printed ++ rest := by
  obtain ⟨result, printed, after⟩ := outcome
  obtain ⟨machine, ended, rfl, rfl⟩ := perform_eq_ok.mp ran
  have allowed : Looser (session.limited limit).settings.maxDepth
      (session.limited wider).settings.maxDepth := looser
  have cut := (respected allowed rfl).executeTop fuel session.globals program
  rcases cut.agrees { session.machine with printed := #[] } with
    same | ⟨stop, stopped, short, overflow, before⟩
  · exact .inl (perform_eq_ok.mpr ⟨machine, same.symm.trans ended, rfl, rfl⟩)
  · obtain ⟨error, rfl, rfl, rfl⟩ := Run.ended_eq_error (ended.symm.trans short)
    refine .inr ⟨⟨error, rfl, overflow⟩, ?_⟩
    intro other again
    obtain ⟨end', done, shown, _⟩ := perform_eq_ok.mp again
    rw [shown]
    apply printedText_append
    have reached : Extends machine (last (Run.ended other.result end')) := by
      rw [← done]
      exact before
    simpa only [last_ended] using reached

/-- A run that does not overflow is the same under every looser limit, and one that does has
printed a part of what it prints under a looser limit. -/
theorem limit_only_cuts (session : Session) (source : String) {limit wider : Option Nat}
    (looser : Looser limit wider) {outcome : Outcome (List Diagnostic)}
    (ended : (session.limited limit).Yields source outcome) :
    (¬ Overflowed outcome.result →
      ∀ other, (session.limited wider).Yields source other ↔ other = outcome.limited wider) ∧
    (Overflowed outcome.result →
      ∀ other, (session.limited wider).Yields source other →
        ∃ rest, other.printed = outcome.printed ++ rest) := by
  obtain ⟨fuel, ran⟩ := ended
  cases parsed : Program.ofSource source with
  | error diagnostics =>
    rw [run_rejected parsed] at ran
    cases ran
    have again : (session.limited wider).Yields source ⟨diagnostics, "", session.limited wider⟩ :=
      ⟨fuel, run_rejected parsed _ _⟩
    refine ⟨fun _ other => ⟨fun done => done.unique again, ?_⟩, fun _ other done => ?_⟩
    · rintro rfl
      exact again
    · rw [done.unique again]
      exact ⟨"", rfl⟩
  | ok program =>
    obtain ⟨result, done, rfl⟩ := (run_accepted parsed).mp ran
    rcases interpret_cut session program looser done with same | ⟨⟨error, failed, overflow⟩, _⟩
    · have again : (session.limited wider).Yields source ((diagnose result).limited wider) :=
        ⟨fuel, (run_accepted parsed).mpr ⟨_, same, rfl⟩⟩
      refine ⟨fun _ other => ⟨fun done => done.unique again, ?_⟩, fun _ other done => ?_⟩
      · rintro rfl
        exact again
      · rw [done.unique again]
        exact ⟨"", (String.append_empty).symm⟩
    · have overflowed : Overflowed (diagnose result).result := by
        simpa only [diagnose, failed] using (overflowed_iff error).mpr overflow
      refine ⟨fun calm => absurd overflowed calm, ?_⟩
      rintro - other ⟨larger, again⟩
      obtain ⟨whole, finished, rfl⟩ := (run_accepted parsed).mp again
      have short := interpret_more (Nat.le_max_left fuel larger) done
      have long := interpret_more (Nat.le_max_right fuel larger) finished
      rcases interpret_cut session program looser short with same | ⟨_, cut⟩
      · rw [long] at same
        cases same
        exact ⟨"", String.append_empty.symm⟩
      · exact cut whole long

/-- A function without end is stopped in its second call, and a function that returns is not. -/
theorem limit_only_cuts_endless_and_returning :
    let session := Session.start ⟨none, Session.steadyClock⟩
    (∃ outcome, (session.limited (some 1)).Yields "fun f() \x7b print nil; f(); \x7d f();" outcome ∧
      Overflowed outcome.result ∧ ∀ other,
        (session.limited (some 2)).Yields "fun f() \x7b print nil; f(); \x7d f();" other →
          ∃ rest, other.printed = "nil\n" ++ rest) ∧
    ∃ outcome, (session.limited (some 1)).Yields "fun f() \x7b print nil; \x7d f();" outcome ∧
      ¬ Overflowed outcome.result ∧
        (session.limited none).Yields "fun f() \x7b print nil; \x7d f();" (outcome.limited none) := by
  intro session
  constructor
  · obtain ⟨outcome, ran, printed, codes⟩ := yields_of_shown (show shown
      ((session.limited (some 1)).run 30 "fun f() \x7b print nil; f(); \x7d f();") =
        some ("nil\n", [.stackOverflow]) by decide +kernel)
    have overflowed : Overflowed outcome.result := by
      have member : Code.stackOverflow ∈ outcome.result.map Diagnostic.code := by simp [codes]
      simpa [Overflowed] using member
    have looser : Looser (some 1) (some 2) := by simp [Looser]
    refine ⟨outcome, ran, overflowed, fun other whole => ?_⟩
    rw [← printed]
    exact (limit_only_cuts session _ looser ran).2 overflowed other whole
  · obtain ⟨outcome, ran, _, codes⟩ := yields_of_shown (show shown
      ((session.limited (some 1)).run 30 "fun f() \x7b print nil; \x7d f();") =
        some ("nil\n", []) by decide +kernel)
    have calm : ¬ Overflowed outcome.result := by
      simp [Overflowed, List.map_eq_nil_iff.mp codes]
    have looser : Looser (some 1) none := by simp [Looser]
    exact ⟨outcome, ran, calm, ((limit_only_cuts session _ looser ran).1 calm _).mpr rfl⟩

end Session
end Lox
