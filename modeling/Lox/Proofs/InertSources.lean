import Lox.Proofs.CappedDepth
import Lox.Proofs.NameRoom

/-! Sources that are no programs do nothing to a session. They do ask for names, so that what comes
later is named otherwise; but what is said and printed stays the same. -/

namespace Lox

/-- Whether nothing is wrong with a source before it runs. -/
def isProgram (source : String) : Bool := (Program.ofSource source).isOk

/-- What is said to those of the sources that are programs. -/
def programAnswers (sources : List String) (answers : List Session.Answer) : List Session.Answer :=
  ((sources.zip answers).filter fun pair => isProgram pair.1).map Prod.snd

section Choice

variable {source : String} {diagnostics : List Diagnostic} {program : Program}

theorem isProgram_of_error (rejected : Program.ofSource source = .error diagnostics) :
    isProgram source = false := by
  rw [isProgram, rejected]
  rfl

theorem isProgram_of_ok (accepted : Program.ofSource source = .ok program) :
    isProgram source = true := by
  rw [isProgram, accepted]
  rfl

theorem filter_rejected (rejected : Program.ofSource source = .error diagnostics)
    (rest : List String) : (source :: rest).filter isProgram = rest.filter isProgram :=
  List.filter_cons_of_neg (by simp [isProgram_of_error rejected])

theorem filter_accepted (accepted : Program.ofSource source = .ok program) (rest : List String) :
    (source :: rest).filter isProgram = source :: rest.filter isProgram :=
  List.filter_cons_of_pos (isProgram_of_ok accepted)

theorem programAnswers_rejected (rejected : Program.ofSource source = .error diagnostics)
    (rest : List String) (answer : Session.Answer) (answers : List Session.Answer) :
    programAnswers (source :: rest) (answer :: answers) = programAnswers rest answers := by
  simp [programAnswers, isProgram_of_error rejected]

theorem programAnswers_accepted (accepted : Program.ofSource source = .ok program)
    (rest : List String) (answer : Session.Answer) (answers : List Session.Answer) :
    programAnswers (source :: rest) (answer :: answers) = answer :: programAnswers rest answers := by
  simp [programAnswers, isProgram_of_ok accepted]

end Choice

namespace Session.Answer

/-- To a source that is no program it is said what is wrong with it, and nothing is printed. -/
def IsFor (answer : Answer) (source : String) : Prop :=
  ∀ diagnostics, Program.ofSource source = .error diagnostics → answer = ⟨diagnostics, ""⟩

/-- Calls were nested too deep. -/
def Overflows (answer : Answer) : Prop :=
  ∃ diagnostic ∈ answer.diagnostics, diagnostic.code = .stackOverflow

theorem overflows_iff {printed : String} {error : RuntimeError} :
    Overflows ⟨[error.diagnostic], printed⟩ ↔ error.fault.Overflow := by
  obtain ⟨fault, line, backtrace⟩ := error
  cases fault <;> simp [Overflows, RuntimeError.diagnostic, RuntimeFault.Overflow, RuntimeFault.code]

end Session.Answer

namespace Flat

open Interner

namespace Session

/-- The session with a limit on the depth of calls in any case. -/
def capped (session : Session) : Session := { session with settings := Flat.capped session.settings }

/-- What a step comes to, and what it comes to under a limit in any case. -/
inductive Caps (settings : Settings) :
    Except Stuck (Session.Answer × Session) → Except Stuck (Session.Answer × Session) → Prop where
  | answered {answer : Session.Answer} {last : Session}
      (calm : settings.maxDepth = none → ¬ answer.Overflows) :
      Caps settings (.ok (answer, last)) (.ok (answer, last.capped))
  | exhausted : Caps settings (.error .exhausted) (.error .exhausted)
  | panicked {panic : Panic} (roomy : panic ≠ .crowded) :
      Caps settings (.error (.panicked panic)) (.error (.panicked panic))
  | refused {panic : Panic} {answer : Session.Answer} {last : Session}
      (unlimited : settings.maxDepth = none) (overflows : answer.Overflows) :
      Caps settings (.error (.panicked panic)) (.ok (answer, last))
  | ended {panic other : Panic} (unlimited : settings.maxDepth = none) :
      Caps settings (.error (.panicked panic)) (.error (.panicked other))

theorem interpret_caps (session : Session) (fuel : Nat) (arena : Arena) (program : Range) :
    Caps session.settings (session.interpret fuel arena program)
      (session.capped.interpret fuel arena program) := by
  obtain ⟨settings, interner, machine, globals⟩ := session
  simp only [capped, interpret]
  cases listed : readList arena.stmtLists program with
  | error panic => exact .panicked fun crowded => Caps.readList_roomy _ _ (crowded ▸ listed)
  | ok ids =>
    simp only
    rcases executeTop_caps arena globals fuel ids { machine with printed := #[] } with
      ⟨same, calm⟩ | ⟨unlimited, ⟨stop, after, ran, panics⟩, stop', after', ran', refuses⟩
    · rw [same]
      generalize executeTop settings interner arena globals fuel ids _ = result at calm ⊢
      cases result with
      | ok _ after =>
        refine .answered fun _ overflows => ?_
        obtain ⟨_, member, -⟩ := overflows
        cases member
      | error stop after =>
        have calm := calm stop after rfl
        cases stop with
        | exhausted => exact .exhausted
        | panicked panic => exact .panicked calm
        | failed error =>
          refine .answered fun unlimited overflows => calm unlimited ?_
          exact Session.Answer.overflows_iff.mp overflows
    · rw [ran, ran']
      cases stop with
      | failed | exhausted => exact panics.elim
      | panicked panic =>
        cases stop' with
        | exhausted => exact refuses.elim
        | panicked other => exact .ended unlimited
        | failed error => exact .refused unlimited (Session.Answer.overflows_iff.mpr refuses)

/-- With a limit there is room for every call. -/
theorem interpret_roomy (session : Session) (fuel : Nat) (arena : Arena) (program : Range) :
    session.capped.interpret fuel arena program ≠ .error (.panicked .crowded) := by
  intro crowded
  have caps := session.capped.interpret_caps fuel arena program
  rw [crowded] at caps
  generalize session.capped.capped.interpret fuel arena program = other at caps
  cases caps with
  | panicked roomy => exact roomy rfl
  | refused unlimited | ended unlimited => cases unlimited

theorem interpret_keeps {session last : Session} {fuel : Nat} {arena : Arena} {program : Range}
    {answer : Session.Answer} (ended : session.interpret fuel arena program = .ok (answer, last)) :
    last.settings = session.settings ∧ last.interner = session.interner := by
  obtain ⟨settings, interner, machine, globals⟩ := session
  simp only [interpret] at ended
  split at ended
  next => cases ended
  next => split at ended <;> cases ended <;> exact ⟨rfl, rfl⟩

/-- Sessions that have come to the same as one over trees, where the second has not been given the
names of all sources of the first. -/
structure Beside (sources : List String) (full kept : Session) : Prop where
  settings : kept.settings = full.settings
  under : Under kept.interner full.interner
  alike : ∃ tree : Lox.Session, full.capped.Reads sources tree ∧ kept.capped.Reads sources tree

variable {sources : List String} {full kept : Session}

/-- If the first has something to say, or runs on, so does the second. -/
def Echoes {α : Type} (post : Session → Session → Prop) :
    Except Stuck (α × Session) → Except Stuck (α × Session) → Prop
  | .ok (answer, full), again => ∃ kept, again = .ok (answer, kept) ∧ post full kept
  | .error .exhausted, again => again = .error .exhausted
  | .error (.panicked _), _ => True

theorem Beside.interpret (beside : Beside sources full kept) {arena arena' : Arena}
    {range range' : Range} {program : Program} (parsed : ParsedFrom sources arena)
    (parsed' : ParsedFrom sources arena') (stands : ProgramAt full.interner arena range program)
    (stands' : ProgramAt kept.interner arena' range' program) (fuel : Nat) :
    Echoes (Beside sources) (full.interpret fuel arena range)
      (kept.interpret fuel arena' range') := by
  obtain ⟨same, under, tree, reads, reads'⟩ := beside
  -- The two arenas have nothing in common, so both runs are compared with that of the tree.
  have alike := interpret_alike reads parsed stands fuel
  have alike' := interpret_alike reads' parsed' stands' fuel
  have roomy := kept.interpret_roomy fuel arena' range'
  have caps := full.interpret_caps fuel arena range
  have caps' := kept.interpret_caps fuel arena' range'
  generalize ran : full.interpret fuel arena range = result at *
  generalize ran' : kept.interpret fuel arena' range' = result' at *
  generalize full.capped.interpret fuel arena range = limited at *
  generalize kept.capped.interpret fuel arena' range' = limited' at *
  cases caps with
  | panicked | refused | ended => trivial
  | exhausted =>
    obtain crowded | ⟨-, endless⟩ | ⟨_, _, ended, -⟩ := alike
    · cases crowded
    · obtain crowded | ⟨rfl, -⟩ | ⟨_, _, -, ended, -⟩ := alike'
      · exact absurd crowded roomy
      · cases caps'
        exact rfl
      · cases endless.symm.trans ended
    · cases ended
  | @answered answer last calm =>
    obtain crowded | ⟨endless, -⟩ | ⟨_, outcome, told, ended, said, reads⟩ := alike
    · cases crowded
    · cases endless
    obtain rfl := Except.ok.inj told
    obtain crowded | ⟨-, endless⟩ | ⟨⟨answer', last'⟩, _, rfl, ended', said', reads'⟩ := alike'
    · exact absurd crowded roomy
    · cases endless.symm.trans ended
    obtain rfl := Except.ok.inj (ended.symm.trans ended')
    simp only at said said'
    obtain rfl := said'.trans said.symm
    cases caps' with
    | refused unlimited overflows => exact absurd overflows (calm (same ▸ unlimited))
    | @answered _ last' =>
      obtain ⟨settings, interner⟩ := interpret_keeps ran
      obtain ⟨settings', interner'⟩ := interpret_keeps ran'
      refine ⟨last', rfl, ?_, ?_, outcome.session, reads, reads'⟩
      · rw [settings, settings', same]
      · rwa [interner, interner']

/-- What is wrong with a source that has been loaded keeps it from being a program. -/
theorem ofSource_of_reads {interner : Interner} {loaded : Loaded} {source : String}
    (reads : loaded.Reads interner source) : Program.ofSource source =
      match loaded.diagnostics with
      | [] => .ok (Parsed.ofTokens (Scan.ofSource source).tokens).program
      | diagnostics => .error diagnostics := by
  rw [reads.diagnostics]
  rfl

/-- Both sessions have been given further names. -/
theorem Beside.loads (beside : Beside sources full kept) {interner interner' : Interner}
    (grows : full.interner.GrowsTo interner) (grows' : kept.interner.GrowsTo interner')
    (under : Under interner' interner) :
    Beside sources { full with interner } { kept with interner := interner' } := by
  obtain ⟨same, -, tree, reads, reads'⟩ := beside
  refine ⟨same, under, tree, ?_, ?_⟩
  · exact ⟨reads.settings, reads.limited, reads.globals, reads.machine.mono grows, reads.founded⟩
  · exact ⟨reads'.settings, reads'.limited, reads'.globals, reads'.machine.mono grows',
      reads'.founded⟩

/-- A source that is no program only has its names kept. -/
theorem Beside.run_rejected (beside : Beside sources full kept) {source : String}
    {diagnostics : List Diagnostic} (rejected : Program.ofSource source = .error diagnostics)
    (fuel : Nat) :
    Echoes (Beside sources) (full.run fuel source) (.ok (⟨diagnostics, ""⟩, kept)) := by
  unfold run
  cases ran : load source full.interner with
  | error panic => trivial
  | ok out =>
    obtain ⟨loaded, interner⟩ := out
    obtain ⟨reads, grows, -, _, -, -, -, under⟩ := load_follows beside.under ran
    rw [ofSource_of_reads reads] at rejected
    split at rejected
    next => cases rejected
    next wrong =>
      obtain rfl := Except.error.inj rejected
      have names : Under kept.interner interner :=
        ⟨beside.under.distinct, List.Subset.trans beside.under.within grows.subset, under.room⟩
      simp only
      exact ⟨kept, rfl, beside.loads grows (.refl _) names⟩

theorem Beside.run_accepted (beside : Beside sources full kept) {source : String}
    (member : source ∈ sources) {program : Program}
    (accepted : Program.ofSource source = .ok program) (fuel : Nat) :
    Echoes (Beside sources) (full.run fuel source) (kept.run fuel source) := by
  unfold run
  cases ran : load source full.interner with
  | error panic => trivial
  | ok out =>
    obtain ⟨loaded, interner⟩ := out
    obtain ⟨reads, grows, loaded', interner', ran', reads', grows', under⟩ :=
      load_follows beside.under ran
    have fine {other : Loaded} {names : Interner} (reads : other.Reads names source) :
        other.diagnostics = [] := by
      rw [ofSource_of_reads reads] at accepted
      split at accepted
      next nothing => exact nothing
      next => cases accepted
    simp only [ran', fine reads, fine reads']
    have parsed : ParsedFrom sources loaded.arena :=
      ⟨source, member, full.interner, loaded, interner, ran, rfl⟩
    have parsed' : ParsedFrom sources loaded'.arena :=
      ⟨source, member, kept.interner, loaded', interner', ran', rfl⟩
    have loads := beside.loads grows grows' under
    exact loads.interpret parsed parsed' reads.program reads'.program fuel

/-- The second session was only given those of the sources that are programs. -/
def Abridges (post : Session → Session → Prop) (sources : List String) :
    Except Stuck (List Session.Answer × Session) → Except Stuck (List Session.Answer × Session) → Prop
  | .ok (answers, full), again => List.Forall₂ Session.Answer.IsFor answers sources ∧
      ∃ kept, again = .ok (programAnswers sources answers, kept) ∧ post full kept
  | .error .exhausted, again => again = .error .exhausted
  | .error (.panicked _), _ => True

namespace Abridges

variable {post : Session → Session → Prop} {source : String} {rest : List String} {fuel : Nat}
  {answer : Session.Answer} {all again : Except Stuck (List Session.Answer × Session)}

/-- A first source that is no program has been left out. -/
theorem cons_rejected {diagnostics : List Diagnostic}
    (rejected : Program.ofSource source = .error diagnostics) (later : Abridges post rest all again) :
    Abridges post (source :: rest)
      (all.map fun told => (⟨diagnostics, ""⟩ :: told.1, told.2)) again := by
  match all, later with
  | .ok (answers, full), ⟨ends, kept, ran, holds⟩ =>
    refine ⟨.cons ?_ ends, kept, ?_, holds⟩
    · intro other same
      obtain rfl := Except.error.inj (rejected.symm.trans same)
      rfl
    · rw [programAnswers_rejected rejected, ran]
  | .error .exhausted, endless => exact endless
  | .error (.panicked _), _ => trivial

/-- A first source that is a program is answered alike. -/
theorem cons_accepted {program : Program} (accepted : Program.ofSource source = .ok program)
    (later : Abridges post rest all again) :
    Abridges post (source :: rest) (all.map fun told => (answer :: told.1, told.2))
      (again.map fun told => (answer :: told.1, told.2)) := by
  match all, later with
  | .ok (answers, full), ⟨ends, kept, ran, holds⟩ =>
    refine ⟨.cons ?_ ends, kept, ?_, holds⟩
    · exact fun _ same => nomatch accepted.symm.trans same
    · rw [programAnswers_accepted accepted, ran]
      rfl
  | .error .exhausted, endless =>
    obtain rfl : again = .error .exhausted := endless
    rfl
  | .error (.panicked _), _ => trivial

end Abridges

theorem answers_cons (session : Session) (fuel : Nat) (source : String) (rest : List String) :
    session.answers fuel (source :: rest) =
      (session.run fuel source).bind fun told =>
        (told.2.answers fuel rest).map fun others => (told.1 :: others.1, others.2) := by
  rw [answers]
  cases session.run fuel source with
  | error stuck => rfl
  | ok told =>
    simp only [bind, Except.bind]
    cases told.2.answers fuel rest <;> rfl

theorem Beside.answers (beside : Beside sources full kept) {rest : List String}
    (members : ∀ source ∈ rest, source ∈ sources) (fuel : Nat) :
    Abridges (Beside sources) rest (full.answers fuel rest)
      (kept.answers fuel (rest.filter isProgram)) := by
  induction rest generalizing full kept with
  | nil => exact ⟨.nil, kept, rfl, beside⟩
  | cons source rest ih =>
    have later {full kept : Session} (beside : Beside sources full kept) :=
      ih beside fun source member => members source (List.mem_cons_of_mem _ member)
    rw [answers_cons]
    cases given : Program.ofSource source with
    | error diagnostics =>
      rw [filter_rejected given]
      have echoes := beside.run_rejected given fuel
      match full.run fuel source, echoes with
      | .ok (answer, after), ⟨_, same, beside⟩ =>
        obtain ⟨rfl, rfl⟩ := Prod.mk.inj (Except.ok.inj same)
        exact (later beside).cons_rejected given
      | .error (.panicked _), _ => trivial
    | ok program =>
      rw [filter_accepted given, answers_cons]
      have echoes := beside.run_accepted (members source List.mem_cons_self) given fuel
      match full.run fuel source, echoes with
      | .ok (answer, after), ⟨last, same, beside⟩ =>
        rw [same]
        exact (later beside).cons_accepted given
      | .error .exhausted, endless =>
        obtain endless : kept.run fuel source = .error .exhausted := endless
        rw [endless]
        rfl
      | .error (.panicked _), _ => trivial

/-- The native functions have their names from the first. -/
theorem start_interner {settings : Settings} {session : Session}
    (started : start settings = .ok session) : session.interner = Interner.fresh := by
  have known : Native.clock.name ∈ Interner.fresh.strings := by decide +kernel
  have clock : intern Native.clock.name Interner.fresh =
      .ok (Interner.fresh.name Native.clock.name, Interner.fresh) := if_pos known
  simp only [start, defineNatives, Native.all, List.foldlM, bind, StateT.bind, clock] at started
  cases started
  rfl

theorem start_capped {settings : Settings} {session : Session}
    (started : start settings = .ok session) : start (Flat.capped settings) = .ok session.capped := by
  unfold start at started ⊢
  cases named : defineNatives #[⟨[], none⟩] 0 Interner.fresh with
  | error panic =>
    rw [named] at started
    cases started
  | ok out =>
    rw [named] at started
    cases started
    rfl

theorem start_beside (sources : List String) {settings : Settings}
    (limited : ∀ limit, settings.maxDepth = some limit → limit ≤ maxCalls) {session : Session}
    (started : start settings = .ok session) : Beside sources session session := by
  have fresh : Under Interner.fresh Interner.fresh := by
    refine ⟨by decide +kernel, List.Subset.refl _, fun index => ?_⟩
    have fewer : (Interner.fresh.inShard index).length ≤ Interner.fresh.strings.length :=
      List.length_filter_le _ _
    have room : Interner.fresh.strings.length ≤ maxIndex + 1 := by decide +kernel
    exact Nat.le_trans fewer room
  have bounded : ∀ limit, (Flat.capped settings).maxDepth = some limit → limit ≤ maxCalls := by
    intro limit same
    obtain rfl := Option.some.inj same
    cases given : settings.maxDepth with
    | none => exact Nat.le_refl _
    | some limit => exact limited limit given
  refine ⟨rfl, start_interner started ▸ fresh, Lox.Session.start (Flat.capped settings), ?_⟩
  rcases start_delivers sources bounded with crowded | ⟨_, started', reads⟩
  · cases (start_capped started).symm.trans crowded
  · obtain rfl := Except.ok.inj ((start_capped started).symm.trans started')
    exact ⟨reads, reads⟩

end Session
end Flat

namespace Session

theorem answers_cons (session : Session) (fuel : Nat) (source : String) (rest : List String) :
    session.answers fuel (source :: rest) =
      (session.run fuel source).bind fun outcome =>
        (outcome.session.answers fuel rest).map fun others =>
          (⟨outcome.result, outcome.printed⟩ :: others.1, others.2) := by
  rw [answers]
  cases session.run fuel source with
  | error stuck => rfl
  | ok outcome =>
    simp only [bind, Except.bind]
    cases outcome.session.answers fuel rest <;> rfl

/-- Where texts are their own names, a session just passes over sources that are no programs. -/
theorem answers_programs (session : Session) (fuel : Nat) (sources : List String) :
    session.answers fuel (sources.filter isProgram) =
      (session.answers fuel sources).map fun told => (programAnswers sources told.1, told.2) := by
  induction sources generalizing session with
  | nil => rfl
  | cons source rest ih =>
    rw [answers_cons]
    cases given : Program.ofSource source with
    | error diagnostics =>
      rw [filter_rejected given, run_rejected given, ih]
      simp only [Except.bind]
      cases session.answers fuel rest with
      | error stuck => rfl
      | ok told => simp only [Except.map, programAnswers_rejected given]
    | ok program =>
      rw [filter_accepted given, answers_cons]
      cases session.run fuel source with
      | error stuck => rfl
      | ok outcome =>
        simp only [Except.bind, ih]
        cases outcome.session.answers fuel rest with
        | error stuck => rfl
        | ok told => simp only [Except.map, programAnswers_accepted given]

theorem answers_isFor {session last : Session} {fuel : Nat} {sources : List String}
    {answers : List Answer} (ran : session.answers fuel sources = .ok (answers, last)) :
    List.Forall₂ Answer.IsFor answers sources := by
  induction sources generalizing session answers with
  | nil =>
    obtain ⟨rfl, -⟩ := Prod.mk.inj (Except.ok.inj ran)
    exact .nil
  | cons source rest ih =>
    rw [answers_cons] at ran
    cases step : session.run fuel source with
    | error stuck =>
      rw [step] at ran
      cases ran
    | ok outcome =>
      rw [step] at ran
      cases others : outcome.session.answers fuel rest with
      | error stuck =>
        simp only [Except.bind, others] at ran
        cases ran
      | ok told =>
        simp only [Except.bind, others] at ran
        obtain ⟨rfl, rfl⟩ := Prod.mk.inj (Except.ok.inj ran)
        refine .cons (fun diagnostics rejected => ?_) (ih others)
        obtain rfl := Except.ok.inj ((run_rejected rejected session fuel).symm.trans step)
        rfl

end Session

/-- Sources that are no programs are inert. Nothing is printed for them; and where they are left out,
the others are answered the same, over trees as over flat memory with other names. -/
theorem Session.rejected_sources_are_inert (sources : List String) (fuel : Nat) :
    (∀ session : Session,
      (∀ answers last, session.answers fuel sources = .ok (answers, last) →
        List.Forall₂ Answer.IsFor answers sources) ∧
      session.answers fuel (sources.filter isProgram) =
        (session.answers fuel sources).map fun told => (programAnswers sources told.1, told.2)) ∧
    ∀ settings, (∀ limit, settings.maxDepth = some limit → limit ≤ Flat.maxCalls) →
      (∀ answers last, Flat.Session.play settings fuel sources = .ok (answers, last) →
        List.Forall₂ Answer.IsFor answers sources ∧
        ∃ last', Flat.Session.play settings fuel (sources.filter isProgram) =
          .ok (programAnswers sources answers, last')) ∧
      (Flat.Session.play settings fuel sources = .error .exhausted →
        Flat.Session.play settings fuel (sources.filter isProgram) = .error .exhausted) := by
  constructor
  · exact fun session =>
      ⟨fun answers last ran => answers_isFor ran, session.answers_programs fuel sources⟩
  intro settings limited
  unfold Flat.Session.play
  cases started : Flat.Session.start settings with
  | error panic => exact ⟨nofun, nofun⟩
  | ok session =>
    have abridges := (Flat.Session.start_beside sources limited started).answers
      (fun _ member => member) fuel
    simp only
    constructor
    · intro answers last ran
      rw [ran] at abridges
      obtain ⟨ends, last', ran', -⟩ := abridges
      exact ⟨ends, last', ran'⟩
    · intro ran
      rw [ran] at abridges
      exact abridges

/-- The second source takes the name that the third one has for its variable when it is left out. -/
theorem Session.rejected_sources_are_inert_later_names :
    let settings : Settings := ⟨some 10, steadyClock⟩
    let sources := ["fun greet(who) \x7b return who + \"!\"; \x7d", "q = ; hi q",
      "var a = greet(\"you\"); print a;", "print b;"]
    (∀ limit, settings.maxDepth = some limit → limit ≤ Flat.maxCalls) ∧
      ∃ answers last last', Flat.Session.play settings 40 sources = .ok (answers, last) ∧
        answers.map Answer.printed = ["", "", "you!\n", ""] ∧
        Flat.Session.play settings 40 (sources.filter isProgram) =
          .ok (programAnswers sources answers, last') ∧
        last.interner.name "a" ≠ last'.interner.name "a" := by
  intro settings sources
  have limited : ∀ limit, settings.maxDepth = some limit → limit ≤ Flat.maxCalls := by
    intro limit same
    cases same
    decide +kernel
  have printed : ((Flat.Session.play settings 40 sources).toOption.map fun played =>
      (played.1.map Answer.printed, played.2.interner.name "a")) =
        some (["", "", "you!\n", ""], ⟨1, 5⟩) := by decide +kernel
  have named : ((Flat.Session.play settings 40 (sources.filter isProgram)).toOption.map fun played =>
      played.2.interner.name "a") = some ⟨1, 3⟩ := by decide +kernel
  refine ⟨limited, ?_⟩
  cases ran : Flat.Session.play settings 40 sources with
  | error stuck =>
    rw [ran] at printed
    cases printed
  | ok told =>
    obtain ⟨answers, last⟩ := told
    have inert := (rejected_sources_are_inert sources 40).2 settings limited
    obtain ⟨-, last', ran'⟩ := inert.1 answers last ran
    rw [ran] at printed
    rw [ran'] at named
    obtain ⟨lines, first⟩ := Prod.mk.inj (Option.some.inj printed)
    refine ⟨answers, last, last', rfl, lines, ran', ?_⟩
    have second : last'.interner.name "a" = ⟨1, 3⟩ := Option.some.inj named
    simp only at first
    rw [first, second]
    decide

end Lox
