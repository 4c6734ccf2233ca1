import Lox.Proofs.JoinedSources
import Lox.Proofs.LayoutErasure
import Lox.Proofs.TreeText

/-! Layout does not matter. What a token is depends on its text alone. Sources whose tokens have the
same texts parse to the same errors and trees at other places, and their runs differ only in the
lines that they report. -/

namespace Lox
namespace Cut

/-- What is cut off from a text is cut off alike with other text behind it. -/
def Again (cut : Cut) : Prop :=
  ∀ rest, Delimited rest → ofChars? (cut.lexeme ++ rest) = some ⟨cut.content, cut.lexeme, rest⟩

theorem word_again {first : Char} (starts : isWordStart first = true) (rest : List Char) :
    (word (first :: rest)).Again := by
  have proper : isWord ((first :: rest).takeWhile isWordPart) = true := by
    rw [List.takeWhile_cons_of_pos (isWordPart_of_start starts)]
    exact Bool.and_eq_true_iff.mpr ⟨starts, List.all_takeWhile⟩
  exact fun _ delimited => ofChars?_word proper delimited

theorem number_again {first : Char} (digit : first.isDigit = true) (rest : List Char) :
    (number (first :: rest)).Again := by
  have digits : ∀ char ∈ (first :: rest).takeWhile Char.isDigit, char.isDigit = true :=
    List.all_eq_true.mp List.all_takeWhile
  have fractional := fraction_digits ((first :: rest).dropWhile Char.isDigit)
  obtain ⟨behind, begins⟩ : ∃ behind, (first :: rest).takeWhile Char.isDigit = first :: behind :=
    ⟨_, List.takeWhile_cons_of_pos digit⟩
  intro other delimited
  simp only [number]
  generalize fraction ((first :: rest).dropWhile Char.isDigit) = places at fractional
  generalize (first :: rest).takeWhile Char.isDigit = whole at digits begins
  have again := number_digits digits fractional delimited.endsNumber
  have front (text : List Char) : ofChars? (whole ++ text) = some (number (whole ++ text)) := by
    rw [begins]
    exact congrArg some (ofText_digit digit _)
  cases places with
  | nil => exact (front other).trans (congrArg some again)
  | cons place places =>
    have cut := (front ('.' :: place :: places ++ other)).trans
      (congrArg some (List.append_assoc .. ▸ again))
    simpa using cut

theorem string_again {rest : List Char} {kind : TokenKind}
    (found : (string rest).content = .token kind) : (string rest).Again := by
  unfold string at found ⊢
  split at found
  next quote after left =>
    obtain rfl := closing_quote left
    have closed : '"' ∉ (String.ofList (rest.takeWhile (· != '"'))).toList := by
      intro member
      rw [String.toList_ofList] at member
      have other := List.all_eq_true.mp List.all_takeWhile _ member
      contradiction
    intro other delimited
    have again := ofChars?_string closed other
    rwa [String.toList_ofList] at again
  next => cases found

theorem symbol_again {first : Char} {sign : Symbol} (spelled : Symbol.ofChar? first = some sign)
    (rest : List Char) : (symbol first sign rest).Again := by
  have single : sign.spelling.toList = [first] := by
    unfold Symbol.ofChar? at spelled
    split at spelled <;> cases spelled <;> rfl
  intro other delimited
  unfold symbol
  split
  next double after found =>
    have spelling : double.spelling.toList = [first, '='] := by
      have longer : double.spelling.toList = sign.spelling.toList ++ ['='] := by
        cases sign <;> cases found <;> rfl
      rw [longer, single]
      rfl
    have again := ofChars?_symbol double delimited
    rwa [spelling] at again
  next =>
    have again := ofChars?_symbol sign delimited
    rwa [single] at again

/-- A lexeme is the token that it was in its source, whatever delimits it. -/
theorem ofText_again {first : Char} {rest : List Char} {kind : TokenKind}
    (found : (ofText first rest).content = .token kind) : (ofText first rest).Again := by
  unfold ofText at found ⊢
  split
  next blank =>
    rw [if_pos blank] at found
    cases found
  next notBlank =>
    rw [if_neg notBlank] at found
    split
    next starts => exact word_again starts rest
    next notWord =>
      rw [if_neg notWord] at found
      split
      next digit => exact number_again digit rest
      next notDigit =>
        rw [if_neg notDigit] at found
        split at found
        next => exact string_again found
        next => cases found
        next =>
          unfold comment at found
          split at found <;> cases found
        next =>
          split
          next sign spelled => exact symbol_again spelled rest
          next none =>
            rw [none] at found
            cases found

end Cut

namespace Scan

theorem own_again {source : String} {token : Token} (member : token ∈ own source) {rest : List Char}
    (delimited : Cut.Delimited rest) : Cut.ofChars? (token.lexeme.toList ++ rest) =
      some ⟨.token token.kind, token.lexeme.toList, rest⟩ := by
  obtain ⟨piece, among, same⟩ := List.mem_filterMap.mp member
  obtain ⟨-, first, rest, -, -, content, text⟩ := Piece.mem_ofSource among
  obtain ⟨kind, mark⟩ := Piece.token?_eq_some.mp same
  have lexeme : token.lexeme = String.ofList piece.lexeme := congrArg Mark.lexeme mark
  have again := Cut.ofText_again (content.symm.trans kind) _ delimited
  rw [lexeme, String.toList_ofList, ← kind, text, content]
  exact again

/-- The kinds of tokens are written in their lexemes. -/
theorem plain_of_lexemes {first second : String}
    (same : (ofSource first).tokens.map Token.lexeme = (ofSource second).tokens.map Token.lexeme) :
    (ofSource first).tokens.map Token.plain = (ofSource second).tokens.map Token.plain := by
  obtain ⟨line, offset, tokens⟩ := tokens_eq first
  obtain ⟨line', offset', tokens'⟩ := tokens_eq second
  rw [tokens, tokens', List.map_append, List.map_append] at same ⊢
  have lexemes : (own first).map Token.lexeme = (own second).map Token.lexeme :=
    List.append_cancel_right same
  refine congrArg (· ++ _) ?_
  refine List.ext_getElem (by simpa using congrArg List.length lexemes) fun index inside inside' => ?_
  rw [List.length_map] at inside inside'
  have text : (own first)[index].lexeme = (own second)[index].lexeme := by
    have there := congrArg (·[index]?) lexemes
    simpa [inside, inside'] using there
  have nothing : Cut.Delimited [] := nofun
  have again := own_again (List.getElem_mem inside) nothing
  rw [text, own_again (List.getElem_mem inside') nothing] at again
  have kind := Content.token.inj (Cut.mk.inj (Option.some.inj again)).1
  rw [List.getElem_map, List.getElem_map, Token.plain, Token.plain, text, kind]

end Scan

/-- Two errors that differ only in their places. -/
structure ParseError.SameButPlace (first second : ParseError) : Prop where
  code : first.code = second.code
  message : first.message = second.message
  location : first.location = second.location

theorem ParseError.sameButPlace {first second : ParseError} (same : first.plain = second.plain) :
    first.SameButPlace second := by
  obtain ⟨code, message, line, span, lexeme⟩ := first
  obtain ⟨code', message', line', span', lexeme'⟩ := second
  obtain ⟨rfl, rfl, -, -, rfl⟩ := ParseError.mk.inj same
  exact ⟨rfl, rfl, rfl⟩

theorem ParseError.SameButPlace.diagnostic {first second : ParseError}
    (same : first.SameButPlace second) : first.diagnostic.SameButLines second.diagnostic :=
  ⟨same.code, same.message, congrArg some same.location, .nil⟩

/-- Two sources without faults whose tokens are the same but for where they stand. The kind of a
token is written in its lexeme. -/
structure SameButLayout (first second : String) : Prop where
  lexes : (Scan.ofSource first).errors = []
  lexes' : (Scan.ofSource second).errors = []
  lexemes : (Scan.ofSource first).tokens.map Token.lexeme =
    (Scan.ofSource second).tokens.map Token.lexeme

theorem Parsed.sameButPlaces {first second : Parsed} (same : first.plain = second.plain) :
    List.Forall₂ ParseError.SameButPlace first.errors second.errors ∧
      first.program.map Stmt.plain = second.program.map Stmt.plain := by
  obtain ⟨program, errors⟩ := first
  obtain ⟨program', errors'⟩ := second
  obtain ⟨programs, errors⟩ := Parsed.mk.inj same
  rw [← List.forall₂_eq_eq_eq, List.forall₂_map_left_iff, List.forall₂_map_right_iff] at errors
  exact ⟨errors.imp fun error other => ParseError.sameButPlace, programs⟩

theorem Stmt.programText_of_plain {first second : List (Stmt Place)}
    (same : first.map Stmt.plain = second.map Stmt.plain) :
    programText first = programText second := by
  have trees (program : List (Stmt Place)) : sexpAll (program.map plain) = sexpAll program := by
    rw [← mapAll_plain, sexpAll_map]
  apply String.toList_injective
  rw [toList_programText, toList_programText, ← trees first, same, trees second]

/-- What two sources are that have the same layout or another. -/
inductive Program.Alike : Except (List Diagnostic) Program → Except (List Diagnostic) Program → Prop
  | accepted (same : first.map Stmt.plain = second.map Stmt.plain) : Alike (.ok first) (.ok second)
  | rejected (same : List.Forall₂ Diagnostic.SameButLines first second) :
      Alike (.error first) (.error second)

namespace SameButLayout

variable {first second : String}

theorem parsed (same : SameButLayout first second) :
    (Parsed.ofTokens (Scan.ofSource first).tokens).plain =
      (Parsed.ofTokens (Scan.ofSource second).tokens).plain := by
  rw [← Parsed.ofTokens_plain, ← Parsed.ofTokens_plain, Scan.plain_of_lexemes same.lexemes]

theorem programs (same : SameButLayout first second) :
    Program.Alike (Program.ofSource first) (Program.ofSource second) := by
  obtain ⟨errors, programs⟩ := Parsed.sameButPlaces same.parsed
  simp only [Program.ofSource, same.lexes, same.lexes', List.map_nil, List.nil_append]
  generalize Parsed.ofTokens (Scan.ofSource first).tokens = before at errors programs
  generalize Parsed.ofTokens (Scan.ofSource second).tokens = after at errors programs
  obtain ⟨program, errors⟩ := before
  obtain ⟨program', errors'⟩ := after
  cases errors with
  | nil => exact .accepted programs
  | cons one others =>
    refine .rejected (.cons one.diagnostic ?_)
    rw [List.forall₂_map_left_iff, List.forall₂_map_right_iff]
    exact others.imp fun error other same => same.diagnostic

end SameButLayout

namespace Session
open Run Interpreter

/-- Two runs that differ only in the lines that they report. -/
inductive RunsAlike : Except Stuck (Outcome (List Diagnostic)) →
    Except Stuck (Outcome (List Diagnostic)) → Prop
  | ended (diagnostics : List.Forall₂ Diagnostic.SameButLines first.result second.result)
      (printed : first.printed = second.printed)
      (sessions : first.session.plain = second.session.plain) : RunsAlike (.ok first) (.ok second)
  | stuck : RunsAlike (.error stuck) (.error stuck)

/-- Programs that differ only in their places, run in sessions that do. -/
theorem interpretsAlike {session other : Session} (alike : session.plain = other.plain)
    {first second : Program} (same : first.map Stmt.plain = second.map Stmt.plain) (fuel : Nat) :
    RunsAlike ((session.interpret fuel first).map diagnose)
      ((other.interpret fuel second).map diagnose) := by
  obtain ⟨settings, machine, globals⟩ := session
  obtain ⟨settings', machine', globals'⟩ := other
  obtain ⟨rfl, machines, rfl⟩ := Session.mk.inj alike
  have ran := executeTop_stripped settings globals fuel first { machine with printed := #[] }
  have ran' := executeTop_stripped settings globals fuel second { machine' with printed := #[] }
  have start : Machine.plain { machine with printed := #[] } =
      Machine.plain { machine' with printed := #[] } := machines
  -- Both are, up to places, the one run of the program without them.
  rw [start, same, ran'] at ran
  simp only [interpret, perform]
  generalize executeTop settings globals fuel first { machine with printed := #[] } = given at ran
  generalize executeTop settings globals fuel second { machine' with printed := #[] } = given' at ran
  have sessions {last last' : Machine} (same : last'.plain = last.plain) :
      Session.plain ⟨settings, last, globals⟩ = Session.plain ⟨settings, last', globals⟩ := by
    rw [plain, plain, same]
  have lines {last last' : Machine} (same : last'.plain = last.plain) :
      printedText last.printed = printedText last'.printed := by
    have printed : last'.plain.printed = last.plain.printed := congrArg Machine.printed same
    have printed : last'.printed = last.printed := printed
    rw [printed]
  cases given with
  | ok value last =>
    cases given' with
    | error => cases ran
    | ok value' last' =>
      obtain ⟨-, machines⟩ := EStateM.Result.ok.inj ran
      exact .ended .nil (lines machines) (sessions machines)
  | error stop last =>
    cases given' with
    | ok => cases ran
    | error stop' last' =>
      obtain ⟨stops, machines⟩ := EStateM.Result.error.inj ran
      cases stop with
      | failed error =>
        cases stop' with
        | failed error' =>
          have same : error'.plain = error.plain := Stop.failed.inj stops
          exact .ended (.cons (RuntimeError.sameButLines same.symm) .nil) (lines machines)
            (sessions machines)
        | exhausted | dangling => cases stops
      | exhausted =>
        cases stop' with
        | exhausted => exact .stuck
        | failed | dangling => cases stops
      | dangling =>
        cases stop' with
        | dangling => exact .stuck
        | failed | exhausted => cases stops

/-- A source that is a program is run by interpreting the program. -/
theorem run_eq_interpret {source : String} {program : Program}
    (accepted : Program.ofSource source = .ok program) (session : Session) (fuel : Nat) :
    session.run fuel source = (session.interpret fuel program).map diagnose := by
  simp only [run, accepted]
  rcases session.interpret fuel program with _ | ⟨_ | _, _, _⟩ <;> rfl

/-- Sources that are the same but for places, in sessions that are. -/
theorem runsAlike_of_programs {session other : Session} (alike : session.plain = other.plain)
    {first second : String} (programs : Program.Alike (Program.ofSource first) (Program.ofSource second))
    (fuel : Nat) : RunsAlike (session.run fuel first) (other.run fuel second) := by
  generalize before : Program.ofSource first = given at programs
  generalize after : Program.ofSource second = given' at programs
  cases programs with
  | rejected same =>
    simp only [run, before, after]
    exact .ended same rfl alike
  | accepted same =>
    rw [run_eq_interpret before, run_eq_interpret after]
    exact interpretsAlike alike same fuel

/-- Layout does not matter. Sources whose tokens have the same texts have the same errors, at other
places, and print as the same trees. Run in the same session, at every budget, they print the same
and report the same, at other lines, and leave the session the same but for places. -/
theorem layout_is_not_seen {first second : String} (same : SameButLayout first second) :
    List.Forall₂ ParseError.SameButPlace (Parsed.ofTokens (Scan.ofSource first).tokens).errors
        (Parsed.ofTokens (Scan.ofSource second).tokens).errors ∧
      Stmt.programText (Parsed.ofTokens (Scan.ofSource first).tokens).program =
        Stmt.programText (Parsed.ofTokens (Scan.ofSource second).tokens).program ∧
      ∀ session other : Session, session.plain = other.plain → ∀ fuel,
        RunsAlike (session.run fuel first) (other.run fuel second) := by
  obtain ⟨errors, programs⟩ := Parsed.sameButPlaces same.parsed
  exact ⟨errors, Stmt.programText_of_plain programs,
    fun _ _ alike => runsAlike_of_programs alike same.programs⟩

/-- A call that fails, written on one line and on three. -/
theorem layout_is_not_seen_failing_call :
    let session := Session.start ⟨some 4, Session.steadyClock⟩
    let first := "fun f() \x7b print 1; return x; \x7d f();"
    let second := "fun f()\x7bprint 1;// one\n\treturn/* x */x;\x7d\nf();"
    SameButLayout first second ∧ ∃ outcome other,
      session.run 30 first = .ok outcome ∧ session.run 30 second = .ok other ∧
        outcome.result.map Diagnostic.line = [some 1] ∧ other.result.map Diagnostic.line = [some 2] ∧
          RunsAlike (.ok outcome) (.ok other) := by
  intro session first second
  have same : SameButLayout first second :=
    ⟨by decide +kernel, by decide +kernel, by decide +kernel⟩
  have lines : (session.run 30 first).toOption.map (·.result.map Diagnostic.line) =
      some [some 1] := by decide +kernel
  have lines' : (session.run 30 second).toOption.map (·.result.map Diagnostic.line) =
      some [some 2] := by decide +kernel
  have alike := (layout_is_not_seen same).2.2 session session rfl 30
  cases ran : session.run 30 first with
  | error stuck => simp [ran, Except.toOption] at lines
  | ok outcome =>
    cases ran' : session.run 30 second with
    | error stuck => simp [ran', Except.toOption] at lines'
    | ok other =>
      rw [ran] at lines alike
      rw [ran'] at lines' alike
      exact ⟨same, outcome, other, rfl, rfl, Option.some.inj lines, Option.some.inj lines', alike⟩

end Session
end Lox
