import Lox.Diagnostic.Report
import Lox.Proofs.MaximalTokens
import Lox.Proofs.SourceNames

/-! The short layout of diagnostics: a line for each, unless what is wrong stands at a string that
goes on over the end of a line. Nothing else that is shown of a source can hold a newline. -/

namespace Lox

/-- Only a string can go on over the end of a line. -/
def TokenKind.Straddles : TokenKind → Prop
  | .string contents => '\n' ∈ contents.toList
  | _ => False

namespace Lexeme

theorem newline_not_mem_numeral {text : List Char} (numeral : text ∈ numerals) : '\n' ∉ text := by
  intro inside
  cases digits_of_numeral numeral _ inside

/-- The lexeme of a token goes on over the end of a line where the token does. -/
theorem Means.newline_iff {lexeme : List Char} {kind : TokenKind} (means : Means lexeme kind) :
    '\n' ∈ lexeme ↔ kind.Straddles := by
  cases means with
  | string closed => simp [TokenKind.Straddles]
  | @keyword word listed => exact iff_of_false (by cases word <;> decide) id
  | @symbol sign => exact iff_of_false (by cases sign <;> decide) id
  | identifier word free =>
    obtain ⟨first, starts, rest, parts, rfl⟩ := mem_words.mp word
    refine iff_of_false (fun inside => ?_) id
    rcases List.mem_cons.mp inside with rfl | later
    · cases mem_letters.mp starts
    · cases mem_parts.mp (parts _ later)
  | number number positive rounds =>
    refine iff_of_false (fun inside => ?_) id
    rcases mem_numbers.mp number with whole | ⟨whole, numeral, places, numeral', rfl⟩
    · exact newline_not_mem_numeral whole inside
    · rcases List.mem_append.mp inside with before | behind
      · exact newline_not_mem_numeral numeral before
      · rcases List.mem_cons.mp behind with point | after
        · cases point
        · exact newline_not_mem_numeral numeral' after

end Lexeme

theorem Diagnostic.newline_not_mem_place {text : Option String} :
    '\n' ∉ (Diagnostic.place text).toList ↔ ∀ lexeme ∈ text, '\n' ∉ lexeme.toList := by
  cases text with
  | none => exact iff_of_true (by decide) nofun
  | some lexeme =>
    have quoted : Diagnostic.place (some lexeme) = "at '" ++ lexeme ++ "'" := rfl
    rw [quoted, newline_not_mem_append, newline_not_mem_append]
    simp

theorem Fault.message_line (fault : Fault) : '\n' ∉ fault.message.toList := by
  cases fault <;> decide

/-- A character that is unexpected is no newline. -/
theorem Cut.newline_not_mem_unexpected {first : Char} {rest : List Char}
    (found : (ofText first rest).content = .fault .unexpectedCharacter) :
    '\n' ∉ (ofText first rest).lexeme := by
  intro inside
  have front := ofText_from first rest
  have described := front.described
  have split := front.split
  rw [found] at described
  generalize (ofText first rest).lexeme = lexeme at *
  generalize (ofText first rest).rest = behind at *
  cases described with
  | unexpected =>
    obtain ⟨rfl, -⟩ := List.cons.inj split
    obtain rfl := List.mem_singleton.mp inside
    cases found
  | unterminated other => exact other rfl

namespace Scan

variable {source : String}

theorem newline_mem_lexeme {token : Token} (member : token ∈ (ofSource source).tokens) :
    '\n' ∈ token.lexeme.toList ↔ token.kind.Straddles := by
  rcases List.mem_append.mp member with inside | last
  · obtain ⟨piece, found, some⟩ := List.mem_filterMap.mp inside
    obtain ⟨-, first, rest, -, -, content, lexeme⟩ := Piece.mem_ofSource found
    obtain ⟨kind, mark⟩ := Piece.token?_eq_some.mp some
    have text : token.lexeme = String.ofList piece.lexeme := congrArg Mark.lexeme mark
    rw [text, String.toList_ofList, lexeme]
    exact (Lexeme.ofText_munches (content.symm.trans kind)).2.newline_iff
  · obtain rfl := List.mem_singleton.mp last
    exact iff_of_false List.not_mem_nil id

theorem newline_not_mem_location {error : LexError} (member : error ∈ (ofSource source).errors) :
    '\n' ∉ error.location.toList := by
  obtain ⟨piece, found, some⟩ := List.mem_filterMap.mp member
  obtain ⟨-, first, rest, -, -, content, lexeme⟩ := Piece.mem_ofSource found
  obtain ⟨fault, mark⟩ := Piece.error?_eq_some.mp some
  have text : error.lexeme = String.ofList piece.lexeme := congrArg Mark.lexeme mark
  unfold LexError.location
  split
  next unexpected =>
    rw [fault, unexpected] at content
    have own := Cut.newline_not_mem_unexpected content.symm
    rw [← lexeme, ← String.toList_ofList (l := piece.lexeme), ← text] at own
    exact Diagnostic.newline_not_mem_place.mpr (by simpa using own)
  all_goals exact Diagnostic.newline_not_mem_place.mpr nofun

end Scan

namespace Diagnostic

/-- The diagnostic is an error of the parser at a string that goes on over the end of a line. -/
def Straddles (source : String) (diagnostic : Diagnostic) : Prop :=
  ∃ error ∈ (Parsed.ofTokens (Scan.ofSource source).tokens).errors,
    ∃ token ∈ (Scan.ofSource source).tokens, error = .ofToken token error.code error.message ∧
      token.kind.Straddles ∧ diagnostic = error.diagnostic

def lineTag : Option Nat → String
  | some line => "[line " ++ toString line ++ "] "
  | none => ""

def phaseTag : Phase → String
  | .running => "runtime error"
  | _ => "error"

def locationTag : Option String → String
  | some location => " " ++ location
  | none => ""

/-- What the short layout shows of a diagnostic in front of the newline. -/
def shortLine (diagnostic : Diagnostic) : String :=
  lineTag diagnostic.line ++ phaseTag diagnostic.code.phase ++ locationTag diagnostic.location ++
    ": " ++ diagnostic.message

variable {source : String} {diagnostic : Diagnostic}

theorem short_eq (diagnostic : Diagnostic) :
    Style.short diagnostic = diagnostic.shortLine ++ "\n" := rfl

theorem newline_not_mem_lineTag (line : Option Nat) : '\n' ∉ (lineTag line).toList := by
  cases line with
  | none => decide
  | some line =>
    exact newline_not_mem_append.mpr
      ⟨newline_not_mem_append.mpr ⟨by decide, newline_not_mem_number line⟩, by decide⟩

theorem newline_not_mem_phaseTag (phase : Phase) : '\n' ∉ (phaseTag phase).toList := by
  cases phase <;> decide

theorem newline_not_mem_locationTag {location : Option String} :
    '\n' ∉ (locationTag location).toList ↔ ∀ text ∈ location, '\n' ∉ text.toList := by
  cases location with
  | none => exact iff_of_true (by decide) nofun
  | some text =>
    rw [locationTag, newline_not_mem_append, and_iff_right (by decide)]
    simp

/-- Only the location of a diagnostic and its message can break its line. -/
theorem newline_not_mem_shortLine : '\n' ∉ diagnostic.shortLine.toList ↔
    (∀ text ∈ diagnostic.location, '\n' ∉ text.toList) ∧ '\n' ∉ diagnostic.message.toList := by
  have colon : '\n' ∉ ": ".toList := by decide
  rw [shortLine, newline_not_mem_append, newline_not_mem_append, newline_not_mem_append,
    newline_not_mem_append, newline_not_mem_locationTag]
  have line := newline_not_mem_lineTag diagnostic.line
  have phase := newline_not_mem_phaseTag diagnostic.code.phase
  tauto

/-- The newlines of the short layout: one behind each diagnostic, and those in their lines. -/
theorem newlines_short (diagnostics : List Diagnostic) :
    (String.join (diagnostics.map Style.short)).toList.count '\n' =
      diagnostics.length + (diagnostics.map fun diagnostic =>
        diagnostic.shortLine.toList.count '\n').sum := by
  induction diagnostics with
  | nil => rfl
  | cons first rest ih =>
    rw [List.map_cons, String.join_cons, String.toList_append, List.count_append, ih, short_eq,
      String.toList_append, List.count_append, List.map_cons, List.sum_cons, List.length_cons]
    have last : "\n".toList.count '\n' = 1 := rfl
    omega

theorem newlines_eq_length_iff {diagnostics : List Diagnostic} :
    (String.join (diagnostics.map Style.short)).toList.count '\n' = diagnostics.length ↔
      ∀ diagnostic ∈ diagnostics, '\n' ∉ diagnostic.shortLine.toList := by
  rw [newlines_short, Nat.add_eq_left, List.sum_eq_zero_iff, List.forall_mem_map]
  simp only [List.count_eq_zero]

end Diagnostic

/-- What an error of the parser shows goes on over the end of a line where its token does. -/
theorem ParseError.newline_mem_location {source : String} {error : ParseError} {token : Token}
    (member : token ∈ (Scan.ofSource source).tokens)
    (stands : error = .ofToken token error.code error.message) :
    '\n' ∈ error.location.toList ↔ token.kind.Straddles := by
  have shown : error.lexeme = if token.isEof then none else some token.lexeme :=
    congrArg ParseError.lexeme stands
  rw [← not_iff_not, location, Diagnostic.newline_not_mem_place, shown]
  split
  next last =>
    refine iff_of_true nofun fun straddles => ?_
    unfold Token.isEof at last
    split at last
    next eof =>
      rw [eof] at straddles
      exact straddles
    next => cases last
  next => simpa using not_congr (Scan.newline_mem_lexeme member)

namespace Diagnostic

variable {source : String} {diagnostic : Diagnostic}

theorem Straddles.newline (straddles : diagnostic.Straddles source) :
    '\n' ∈ diagnostic.shortLine.toList := by
  obtain ⟨error, -, token, member, stands, breaks, rfl⟩ := straddles
  by_contra line
  have location := (newline_not_mem_shortLine.mp line).1 error.location rfl
  exact location ((ParseError.newline_mem_location member stands).mpr breaks)

end Diagnostic

namespace Session

variable {source : String}

/-- What keeps a source from being a program breaks its line at such a string only. -/
theorem rejected_line {diagnostics : List Diagnostic}
    (rejected : Program.ofSource source = .error diagnostics) : ∀ diagnostic ∈ diagnostics,
      ¬ diagnostic.Straddles source → '\n' ∉ diagnostic.shortLine.toList := by
  obtain ⟨-, rfl⟩ := Program.ofSource_eq_error rejected
  intro diagnostic member inside
  rw [Diagnostic.newline_not_mem_shortLine]
  rcases List.mem_append.mp member with member | member
  all_goals obtain ⟨error, among, rfl⟩ := List.mem_map.mp member
  · refine ⟨fun text same => ?_, ?_⟩
    · cases same
      exact Scan.newline_not_mem_location among
    · exact error.fault.message_line
  · have cites := Parsed.errors_cite (Scan.tokens_inOrder source) error among
    obtain ⟨token, stands, same⟩ := cites.token
    refine ⟨fun text shown => ?_, cites.oneLine⟩
    cases shown
    rw [ParseError.newline_mem_location stands same]
    exact fun straddles => inside ⟨error, among, token, stands, same, straddles, rfl⟩

/-- The short report of a run is a line for each diagnostic, and has as many newlines as there are
diagnostics, unless the parser found an error at a string that goes on over the end of a line. -/
theorem short_report_lines {settings : Settings} {outcome : Outcome (List Diagnostic)}
    (ran : (start settings).Yields source outcome) (colored : Bool) :
    let report := Style.report ⟨.short, colored⟩ outcome.result
    report = String.join (outcome.result.map Style.short) ∧
      (∀ diagnostic ∈ outcome.result, ∃ line, Style.short diagnostic = line ++ "\n" ∧
        ('\n' ∈ line.toList ↔ diagnostic.Straddles source)) ∧
      (report.toList.count '\n' = outcome.result.length ↔
        ∀ diagnostic ∈ outcome.result, ¬ diagnostic.Straddles source) := by
  intro report
  have joined : report = String.join (outcome.result.map Style.short) := String.append_empty
  have plain : ∀ diagnostic ∈ outcome.result,
      ¬ diagnostic.Straddles source → '\n' ∉ diagnostic.shortLine.toList := by
    obtain ⟨fuel, ran⟩ := ran
    cases parsed : Program.ofSource source with
    | error diagnostics =>
      rw [run_rejected parsed] at ran
      obtain rfl := Except.ok.inj ran
      exact rejected_line parsed
    | ok program =>
      obtain ⟨⟨result, printed, after⟩, interpreted, rfl⟩ := (run_accepted parsed).mp ran
      cases result with
      | ok value => exact nofun
      | error error =>
        intro diagnostic member _
        obtain rfl := List.mem_singleton.mp member
        rw [Diagnostic.newline_not_mem_shortLine]
        exact ⟨nofun, interpret_message_line parsed interpreted⟩
  have breaks (diagnostic : Diagnostic) (member : diagnostic ∈ outcome.result) :
      '\n' ∈ diagnostic.shortLine.toList ↔ diagnostic.Straddles source :=
    ⟨fun newline => by_contra fun other => plain diagnostic member other newline,
      Diagnostic.Straddles.newline⟩
  refine ⟨joined, fun diagnostic member => ⟨_, diagnostic.short_eq, breaks diagnostic member⟩, ?_⟩
  rw [joined, Diagnostic.newlines_eq_length_iff]
  exact forall₂_congr fun diagnostic member => not_congr (breaks diagnostic member)

/-- A line for each of two errors, the first of which stands at a string. -/
theorem short_report_lines_two_errors :
    let source := "print 1 \"x\";\nprint ;"
    ∃ outcome, (start ⟨none, steadyClock⟩).Yields source outcome ∧ outcome.result.length = 2 ∧
      Style.report ⟨.short, false⟩ outcome.result =
        "[line 1] error at '\"x\"': expected ';' after value\n" ++
          "[line 2] error at ';': expected expression\n" ∧
        ∀ diagnostic ∈ outcome.result, ¬ diagnostic.Straddles source := by
  intro source
  let session := start ⟨none, steadyClock⟩
  have shown : (session.run 1 source).toOption.map (fun outcome =>
      (outcome.result.length, Style.report ⟨.short, false⟩ outcome.result)) =
    some (2, "[line 1] error at '\"x\"': expected ';' after value\n" ++
      "[line 2] error at ';': expected expression\n") := by decide +kernel
  obtain ⟨outcome, yields, seen⟩ := yields_of_map shown
  obtain ⟨two, report⟩ := Prod.mk.inj seen
  refine ⟨outcome, yields, two, report, (short_report_lines yields false).2.2.mp ?_⟩
  rw [report, two]
  decide

/-- An error at a string that goes on over the end of a line is shown on two lines. -/
theorem short_report_straddling_string :
    let source := "print 1 \"x\ny\";"
    ∃ outcome, (start ⟨none, steadyClock⟩).Yields source outcome ∧ outcome.result.length = 1 ∧
      Style.report ⟨.short, false⟩ outcome.result =
        "[line 2] error at '\"x\ny\"': expected ';' after value\n" ∧
        (Style.report ⟨.short, false⟩ outcome.result).toList.count '\n' = 2 := by
  intro source
  let session := start ⟨none, steadyClock⟩
  have shown : (session.run 1 source).toOption.map (fun outcome =>
      (outcome.result.length, Style.report ⟨.short, false⟩ outcome.result)) =
    some (1, "[line 2] error at '\"x\ny\"': expected ';' after value\n") := by decide +kernel
  obtain ⟨outcome, yields, seen⟩ := yields_of_map shown
  obtain ⟨one, report⟩ := Prod.mk.inj seen
  refine ⟨outcome, yields, one, report, ?_⟩
  rw [report]
  decide

end Session
end Lox
