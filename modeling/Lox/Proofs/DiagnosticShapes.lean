import Lox.Proofs.Backtraces
import Lox.Proofs.SpanNesting

/-! What a run reports. Either it was stopped before anything ran, by the errors of reading, or by
the one error that it ended in, and all the lines that are told are lines of the source. -/

namespace Lox

/-- How the codes of a phase begin. -/
def Phase.series : Phase → String
  | .lexing => "E0"
  | .parsing => "E1"
  | .running => "E6"

/-- The lines that the tokens and the errors of a source are on. -/
def Scan.lines (scan : Scan) : List Nat :=
  scan.tokens.map Token.line ++ scan.errors.map LexError.line

namespace Diagnostic

/-- The code is one of a phase: the series of the phase, and three digits. -/
structure Of (phase : Phase) (diagnostic : Diagnostic) : Prop where
  among : diagnostic.code.phase = phase
  name : ∃ digits, diagnostic.code.name = phase.series ++ digits ∧ digits.length = 3 ∧
    digits.toList.all Char.isDigit

/-- A diagnostic on one of the lines, whose notes tell of calls on further ones of them. -/
structure On (lines : List Nat) (diagnostic : Diagnostic) : Prop where
  line : ∃ line ∈ lines, diagnostic.line = some line
  notes : ∀ note ∈ diagnostic.notes, ∃ name : String, ∃ line ∈ lines,
    note = s!"in call to '{name}' at line {line}"

theorem of_phase {phase : Phase} {diagnostic : Diagnostic} (among : diagnostic.code.phase = phase) :
    diagnostic.Of phase := by
  refine ⟨among, String.ofList (diagnostic.code.name.toList.drop 2), ?_⟩
  subst among
  cases diagnostic.code <;> decide

end Diagnostic

/-- The three ways that a run of a source can end: with nothing to report, before anything has run,
and at the error that stopped the program. -/
inductive Session.Reports (source : String) : Outcome (List Diagnostic) → Prop where
  | nothing {printed : String} {after : Session} : Reports source ⟨[], printed, after⟩
  | rejected {lexical : List LexError} {syntactic : List ParseError} {after : Session}
      (some : lexical.map LexError.diagnostic ++ syntactic.map ParseError.diagnostic ≠ [])
      (scanned : lexical = (Scan.ofSource source).errors)
      (inOrder : lexical.Pairwise fun first second => first.mark.Before second.mark)
      (lexing : ∀ error ∈ lexical, error.diagnostic.Of .lexing)
      (parsed : syntactic = (Parsed.ofTokens (Scan.ofSource source).tokens).errors)
      (parsing : ∀ error ∈ syntactic, error.diagnostic.Of .parsing)
      (located : ∀ diagnostic ∈
        lexical.map LexError.diagnostic ++ syntactic.map ParseError.diagnostic,
          diagnostic.location.isSome ∧ diagnostic.notes = []) :
      Reports source
        ⟨lexical.map LexError.diagnostic ++ syntactic.map ParseError.diagnostic, "", after⟩
  | stopped {diagnostic : Diagnostic} {printed : String} {after : Session}
      (running : diagnostic.Of .running) (bare : diagnostic.location = none) :
      Reports source ⟨[diagnostic], printed, after⟩

section Parts
variable {program : Program}

mutual

/-- What is in an expression of a program is in the program. -/
theorem Expr.parts_has : ∀ expr : Expr Place, program.Has (.expr expr) →
    ∀ part ∈ expr.parts, program.Has part
  | .literal _ _, has, part, member | .name _ _, has, part, member => by
    obtain rfl := List.mem_singleton.mp member
    exact has
  | .grouping _ inner, has, part, member | .unary _ _ inner, has, part, member
  | .assign _ _ inner, has, part, member => by
    rcases List.mem_cons.mp member with rfl | inside
    · exact has
    · exact parts_has inner (has.child (by simp [Part.children])) part inside
  | .binary _ _ left right, has, part, member | .logical _ _ left right, has, part, member => by
    rcases List.mem_cons.mp member with rfl | inside
    · exact has
    rcases List.mem_append.mp inside with inside | inside
    · exact parts_has left (has.child (by simp [Part.children])) part inside
    · exact parts_has right (has.child (by simp [Part.children])) part inside
  | .call _ callee arguments, has, part, member => by
    rcases List.mem_cons.mp member with rfl | inside
    · exact has
    rcases List.mem_append.mp inside with inside | inside
    · exact parts_has callee (has.child (by simp [Part.children])) part inside
    · exact partsAll_has (fun expr among => has.child (by simp [Part.children, among])) part inside

theorem Expr.partsAll_has : ∀ {exprs : List (Expr Place)},
    (∀ expr ∈ exprs, program.Has (.expr expr)) → ∀ part ∈ partsAll exprs, program.Has part
  | expr :: rest, has, part, member => by
    rcases List.mem_append.mp member with inside | inside
    · exact parts_has expr (has expr List.mem_cons_self) part inside
    · exact partsAll_has (fun expr among => has expr (.tail _ among)) part inside

end

mutual

theorem Stmt.parts_has : ∀ stmt : Stmt Place, program.Has (.stmt stmt) →
    ∀ part ∈ stmt.parts, program.Has part
  | .expression _ inner, has, part, member | .print _ inner, has, part, member
  | .declare _ _ (some inner), has, part, member
  | .returnValue _ (some inner), has, part, member => by
    rcases List.mem_cons.mp member with rfl | inside
    · exact has
    · exact inner.parts_has (has.child (by simp [Part.children])) part inside
  | .block _ body, has, part, member => by
    rcases List.mem_cons.mp member with rfl | inside
    · exact has
    · exact partsAll_has (fun stmt among => has.child (by simp [Part.children, among])) part inside
  | .ifThen _ condition body, has, part, member
  | .whileLoop _ condition body, has, part, member => by
    rcases List.mem_cons.mp member with rfl | inside
    · exact has
    rcases List.mem_append.mp inside with inside | inside
    · exact condition.parts_has (has.child (by simp [Part.children])) part inside
    · exact parts_has body (has.child (by simp [Part.children])) part inside
  | .ifElse _ condition body other, has, part, member => by
    rcases List.mem_cons.mp member with rfl | inside
    · exact has
    rcases List.mem_append.mp inside with inside | inside
    · exact condition.parts_has (has.child (by simp [Part.children])) part inside
    rcases List.mem_append.mp inside with inside | inside
    · exact parts_has body (has.child (by simp [Part.children])) part inside
    · exact parts_has other (has.child (by simp [Part.children])) part inside
  | .declare _ _ none, has, part, member | .returnValue _ none, has, part, member
  | .function _ _ _ _, has, part, member | .breakLoop _, has, part, member
  | .continueLoop _, has, part, member => by
    obtain rfl := List.mem_singleton.mp member
    exact has

theorem Stmt.partsAll_has : ∀ {stmts : List (Stmt Place)},
    (∀ stmt ∈ stmts, program.Has (.stmt stmt)) → ∀ part ∈ partsAll stmts, program.Has part
  | stmt :: rest, has, part, member => by
    rcases List.mem_append.mp member with inside | inside
    · exact parts_has stmt (has stmt List.mem_cons_self) part inside
    · exact partsAll_has (fun stmt among => has stmt (.tail _ among)) part inside

end

end Parts

namespace Program
variable {program : Program} {owner : Option String} {body : List (Stmt Place)}

theorem has_of_mem : ∀ part ∈ Stmt.partsAll program, program.Has part :=
  Stmt.partsAll_has fun stmt among => ⟨stmt, among, .refl⟩

theorem Declares.has {name : String} {params : List String}
    (declared : program.Declares name params body) :
    ∀ part ∈ Stmt.partsAll body, program.Has part := by
  have within {place : Place} {name : String} {params : List String} {body : List (Stmt Place)}
      (has : program.Has (.stmt (.function place name params body))) :
      ∀ part ∈ Stmt.partsAll body, program.Has part :=
    Stmt.partsAll_has fun stmt among => has.child (by simp [Part.children, among])
  induction declared with
  | here member => exact within (has_of_mem _ member)
  | inside declared member ih => exact within (ih _ member)

/-- The code that a frame stands for is code of the program. -/
theorem Body.has (code : program.Body program owner body) :
    ∀ part ∈ Stmt.partsAll body, program.Has part := by
  cases owner with
  | none =>
    obtain rfl : body = program := code
    exact has_of_mem
  | some name =>
    obtain ⟨params, declared⟩ := code
    exact declared.has

/-- All lines of the code of a source are lines that tokens of the source are on. -/
theorem Body.lines {source : String} (accepted : Program.ofSource source = .ok program)
    (code : program.Body program owner body) :
    ∀ line ∈ Stmt.lines body, line ∈ (Scan.ofSource source).lines := by
  intro line member
  obtain ⟨part, among, rfl⟩ := List.mem_map.mp member
  obtain ⟨-, clean, same⟩ := Program.ofSource_eq_ok.mp accepted
  have has := code.has part among
  rw [← same] at has
  obtain ⟨first, last, -, own⟩ := (Parsed.lies (Scan.tokens_inOrder source) clean has).placed
  have line : part.line = part.place.line := by cases part <;> rfl
  exact List.mem_append_left _ (line ▸ own.line)

end Program

theorem Stmt.callLines_subset (body : List (Stmt Place)) : callLines body ⊆ lines body := by
  intro line member
  obtain ⟨part, among, called⟩ := List.mem_filterMap.mp member
  refine List.mem_map.mpr ⟨part, among, ?_⟩
  unfold Part.callLine? at called
  split at called
  · exact Option.some.inj called
  · cases called

/-- The line of an error and those of the calls around it are lines of the source. -/
theorem Program.Backtraces.on {source : String} {program : Program} {limit : Option Nat}
    {error : RuntimeError} (accepted : Program.ofSource source = .ok program)
    (traces : program.Backtraces limit error) :
    error.diagnostic.On (Scan.ofSource source).lines := by
  constructor
  · obtain ⟨body, code, raised⟩ := traces.raised
    exact ⟨error.line, code.lines accepted _ raised, rfl⟩
  · intro note member
    obtain ⟨frame, among, rfl⟩ := List.mem_map.mp member
    obtain ⟨index, found⟩ := List.mem_iff_getElem?.mp among
    obtain ⟨body, code, called⟩ := traces.called index frame (by simpa using found)
    exact ⟨frame.function, frame.line,
      code.lines accepted _ (Stmt.callLines_subset body called), rfl⟩

namespace Scan

/-- Lines are counted from the first, and only newlines begin further ones. -/
theorem lines_bounds (source : String) :
    ∀ line ∈ (ofSource source).lines, 1 ≤ line ∧ line ≤ 1 + source.toList.count '\n' := by
  have tiles := Piece.ofSource_tiles source.toList
  have bounds (piece : Piece) (among : piece ∈ Piece.ofSource source.toList) :
      1 ≤ piece.line ∧ piece.line ≤ 1 + source.toList.count '\n' := by
    obtain ⟨before, after, whole, -, -, line, -⟩ := tiles.part piece among
    have parts : source.toList.count '\n' =
        Piece.newlines (before ++ piece.lexeme) + Piece.newlines after := by
      rw [← Piece.newlines_append, ← whole]
      rfl
    omega
  have scanned : (ofSource source).tokens = (Piece.ofSource source.toList).filterMap Piece.token? ++
    [Token.endOfInput (1 + Piece.newlines source.toList) (Piece.width source.toList)] := rfl
  intro line member
  rcases List.mem_append.mp member with member | member
  · obtain ⟨token, among, rfl⟩ := List.mem_map.mp member
    rw [scanned] at among
    rcases List.mem_append.mp among with among | last
    · obtain ⟨piece, among, same⟩ := List.mem_filterMap.mp among
      have line : token.line = piece.line := congrArg Mark.line (Piece.token?_eq_some.mp same).2
      exact line ▸ bounds piece among
    · obtain rfl := List.mem_singleton.mp last
      exact ⟨Nat.le_add_right _ _, Nat.le_refl _⟩
  · obtain ⟨error, among, rfl⟩ := List.mem_map.mp member
    obtain ⟨piece, among, same⟩ := List.mem_filterMap.mp among
    have line : error.line = piece.line := congrArg Mark.line (Piece.error?_eq_some.mp same).2
    exact line ▸ bounds piece among

end Scan

theorem LexError.diagnostic_of (error : LexError) : error.diagnostic.Of .lexing := by
  refine Diagnostic.of_phase ?_
  simp only [diagnostic]
  cases error.fault <;> rfl

theorem RuntimeError.diagnostic_of (error : RuntimeError) : error.diagnostic.Of .running := by
  refine Diagnostic.of_phase ?_
  simp only [diagnostic]
  cases error.fault <;> rfl

/-- What is reported of a source that is no program are the errors of its scan and of its tokens. -/
theorem Program.ofSource_eq_error {source : String} {diagnostics : List Diagnostic}
    (rejected : Program.ofSource source = .error diagnostics) : diagnostics ≠ [] ∧
      diagnostics = (Scan.ofSource source).errors.map LexError.diagnostic ++
        (Parsed.ofTokens (Scan.ofSource source).tokens).errors.map ParseError.diagnostic := by
  simp only [Program.ofSource] at rejected
  split at rejected
  · cases rejected
  next other =>
    obtain rfl := Except.error.inj rejected
    exact ⟨other, rfl⟩

namespace Session

/-- What keeps a source from being a program is shown where it stands. -/
theorem rejected_reports {source : String} {diagnostics : List Diagnostic}
    (rejected : Program.ofSource source = .error diagnostics) (after : Session) :
    Reports source ⟨diagnostics, "", after⟩ ∧
      ∀ diagnostic ∈ diagnostics, diagnostic.On (Scan.ofSource source).lines := by
  obtain ⟨some, rfl⟩ := Program.ofSource_eq_error rejected
  have cites := Parsed.errors_cite (Scan.tokens_inOrder source)
  refine ⟨.rejected some rfl (Piece.ofSource_tiles source.toList).errorsInOrder
    (fun error _ => error.diagnostic_of) rfl
    (fun error among => Diagnostic.of_phase (cites error among).parsing)
    (fun diagnostic member => ?_), fun diagnostic member => ?_⟩
  all_goals rcases List.mem_append.mp member with member | member
  all_goals obtain ⟨error, among, rfl⟩ := List.mem_map.mp member
  · exact ⟨rfl, rfl⟩
  · exact ⟨rfl, rfl⟩
  · exact ⟨⟨error.line, List.mem_append_right _ (List.mem_map_of_mem among), rfl⟩, nofun⟩
  · obtain ⟨token, stands, same⟩ := (cites error among).token
    have line : error.line = token.line := congrArg ParseError.line same
    exact ⟨⟨error.line, List.mem_append_left _ (line ▸ List.mem_map_of_mem stands), rfl⟩, nofun⟩

/-- A run in a fresh session reports in one of three ways, and whatever lines it tells are lines of
the source. -/
theorem diagnostics_have_shapes {settings : Settings} {source : String}
    {outcome : Outcome (List Diagnostic)} (ran : (start settings).Yields source outcome) :
    Reports source outcome ∧
      (∀ diagnostic ∈ outcome.result, diagnostic.On (Scan.ofSource source).lines) ∧
      ∀ line ∈ (Scan.ofSource source).lines, 1 ≤ line ∧ line ≤ 1 + source.toList.count '\n' := by
  obtain ⟨fuel, ran⟩ := ran
  suffices shaped : Reports source outcome ∧
      ∀ diagnostic ∈ outcome.result, diagnostic.On (Scan.ofSource source).lines from
    ⟨shaped.1, shaped.2, Scan.lines_bounds source⟩
  cases parsed : Program.ofSource source with
  | error diagnostics =>
    rw [run_rejected parsed] at ran
    obtain rfl := Except.ok.inj ran
    exact rejected_reports parsed _
  | ok program =>
    obtain ⟨⟨result, printed, after⟩, interpreted, rfl⟩ := (run_accepted parsed).mp ran
    cases result with
    | ok value => exact ⟨.nothing, nofun⟩
    | error error =>
      refine ⟨.stopped error.diagnostic_of rfl, fun diagnostic member => ?_⟩
      obtain rfl := List.mem_singleton.mp member
      exact (interpret_backtraces interpreted).on parsed

/-- A run that is stopped in a call tells the line it was stopped on and the line of the call. -/
theorem diagnostics_have_shapes_in_call :
    let source := "fun f() \x7b\n  nil();\n\x7d\nf();"
    ∃ outcome, (start ⟨none, steadyClock⟩).Yields source outcome ∧
      outcome.result = [⟨.notCallable, "nil is not callable", some 2, none,
        ["in call to 'f' at line 4"]⟩] ∧ Reports source outcome ∧
      (∀ diagnostic ∈ outcome.result, diagnostic.On (Scan.ofSource source).lines) ∧
      ∀ line ∈ (Scan.ofSource source).lines, 1 ≤ line ∧ line ≤ 1 + source.toList.count '\n' := by
  intro source
  let shown : Diagnostic :=
    ⟨.notCallable, "nil is not callable", some 2, none, ["in call to 'f' at line 4"]⟩
  have found : ((start ⟨none, steadyClock⟩).run 20 source).toOption.map Outcome.result =
      some [shown] := by decide +kernel
  cases ran : (start ⟨none, steadyClock⟩).run 20 source with
  | error stuck => simp [ran, Except.toOption] at found
  | ok outcome =>
    have same : outcome.result = [shown] := by simpa [ran, Except.toOption] using found
    exact ⟨outcome, ⟨20, ran⟩, same, diagnostics_have_shapes ⟨20, ran⟩⟩

end Session
end Lox
