import Lox.Proofs.LayoutIndependence
import Lox.Proofs.StatementExactness

/-! A `for` loop is what it is an abbreviation of. Written out by hand as a block with a `while` loop
it is parsed to the same tree, and so it runs the same but for the lines that are reported. -/

namespace Lox

theorem Closed.eof_not_mem {front : List TokenKind} (closed : Closed (front ++ [.eof])) :
    .eof ∉ front := by
  induction front with
  | nil => exact List.not_mem_nil
  | cons kind front ih =>
    have other : kind ≠ .eof := by
      rintro rfl
      simpa using closed.eof_last
    exact List.not_mem_cons_of_ne_of_not_mem other.symm (ih (closed.tail other))

namespace Grammar
open Form

/-- The kinds of tokens that a `for` loop is made of: its first clause, with the semicolon, its
condition, its last clause and its body. -/
structure LoopParts where
  first : List TokenKind
  condition : List TokenKind
  last : List TokenKind
  body : List TokenKind

namespace LoopParts

variable (parts : LoopParts)

/-- The parts are what the description of the language asks for. -/
structure Fit : Prop where
  first : parts.first ∈
    (oneOf (symbol .varDeclaration) [symbol .exprStatement, sign .semicolon]).language
  condition : parts.condition ∈ (maybe (symbol .expression)).language
  last : parts.last ∈ (maybe (symbol .expression)).language
  body : parts.body ∈ (symbol .statement).language

/-- The parts have these trees, and keep to the limits on arguments and parameters. -/
structure Derived (ending : Bool) (first : Option (Stmt Unit)) (condition last : Option (Expr Unit))
    (body : Stmt Unit) : Prop where
  first : FirstClause parts.first first
  condition : Optional parts.condition condition
  last : Optional parts.last last
  body : Statement ending parts.body body

def loop : List TokenKind :=
  .keyword .forWord :: .symbol .leftParen :: (parts.first ++ (parts.condition ++
    .symbol .semicolon :: (parts.last ++ .symbol .rightParen :: parts.body)))

/-- The first clause as a statement. A semicolon by itself is none. -/
def opening : List TokenKind := if parts.first = [.symbol .semicolon] then [] else parts.first

/-- The condition of the `while` loop. A loop without a condition goes on. -/
def test : List TokenKind :=
  if parts.condition = [] then [.keyword .trueWord] else parts.condition

/-- The last clause as a statement. -/
def step : List TokenKind := if parts.last = [] then [] else parts.last ++ [.symbol .semicolon]

/-- The loop written out by hand. -/
def expansion : List TokenKind :=
  .symbol .leftBrace :: (parts.opening ++ .keyword .whileWord :: .symbol .leftParen ::
    (parts.test ++ .symbol .rightParen :: .symbol .leftBrace ::
      (parts.body ++ parts.step ++ [.symbol .rightBrace])) ++ [.symbol .rightBrace])

end LoopParts

/-- Declarations behind declarations. -/
theorem Declarations.append {front back : List TokenKind} {trees others : List (Stmt Unit)} :
    Declarations front trees → Declarations back others →
      Declarations (front ++ back) (trees ++ others)
  | .nil, others => others
  | .cons first further, others => by
    rw [List.append_assoc]
    exact .cons first (further.append others)

theorem Declarations.of_nil {trees : List (Stmt Unit)} (derived : Declarations [] trees) :
    trees = [] := by
  generalize same : ([] : List TokenKind) = phrase at derived
  cases derived with
  | nil => rfl
  | cons first =>
    obtain ⟨kind, rest, rfl, -⟩ := first.begins
    cases same

section
variable {parts : LoopParts} {ending : Bool} {first : Option (Stmt Unit)}
  {condition last : Option (Expr Unit)} {body : Stmt Unit}

theorem FirstClause.opening (derived : FirstClause parts.first first) :
    Declarations parts.opening first.toList := by
  unfold LoopParts.opening
  generalize parts.first = phrase at derived
  cases derived with
  | none => exact .nil
  | declare declared =>
    have other : phrase ≠ [.symbol .semicolon] := by
      rintro rfl
      cases declared
    rw [if_neg other, ← List.append_nil phrase]
    exact .cons (.declare declared) .nil
  | @expression inner _ expr =>
    have other : inner ++ [.symbol .semicolon] ≠ [.symbol .semicolon] := by
      simpa using expr.begins.ne_nil
    rw [if_neg other, ← List.append_nil (inner ++ _)]
    exact .cons (.statement (.expression expr)) .nil

theorem Optional.test (derived : Optional parts.condition condition) :
    Expression parts.test (condition.getD (.literal () (.bool true))) := by
  unfold LoopParts.test
  generalize parts.condition = phrase at derived
  cases derived with
  | none => exact .operation (.single (.single (.single (.single (.single (.single
      (.operand (.call (.primary (.leaf .true))))))))))
  | some expr =>
    rw [if_neg expr.begins.ne_nil]
    exact expr

theorem Optional.step (derived : Optional parts.last last) :
    Declarations parts.step (last.map (Stmt.expression ())).toList := by
  unfold LoopParts.step
  generalize parts.last = phrase at derived
  cases derived with
  | none => exact .nil
  | some expr =>
    rw [if_neg expr.begins.ne_nil, ← List.append_nil (phrase ++ _)]
    exact .cons (.statement (.expression expr)) .nil

namespace LoopParts

theorem Derived.loop (derived : parts.Derived ending first condition last body) :
    Statement ending parts.loop (forLoop first condition last body) :=
  .forLoop derived.first derived.condition derived.last derived.body

/-- Both ways to write a loop have the same tree. -/
theorem Derived.expansion (derived : parts.Derived ending first condition last body) :
    Statement false parts.expansion (forLoop first condition last body) := by
  have round : Statement false (.symbol .leftBrace :: (parts.body ++ parts.step ++
      [.symbol .rightBrace])) (.block () (body :: (last.map (Stmt.expression ())).toList)) :=
    .block (.cons (.statement derived.body) derived.last.step)
  have loop := Declarations.cons (.statement (.whileLoop derived.condition.test round)) .nil
  have whole := Statement.block (derived.first.opening.append loop)
  simpa [LoopParts.expansion, forLoop] using whole

theorem eof_not_mem_expansion (closed : Closed (parts.loop ++ [.eof])) :
    .eof ∉ parts.expansion := by
  have outside := closed.eof_not_mem
  simp only [LoopParts.loop, List.mem_cons, List.mem_append, not_or] at outside
  simp only [LoopParts.expansion, opening, test, step]
  split_ifs <;> simp_all

/-- What begins with the keyword of a loop is a loop. -/
theorem of_declaration {later : List TokenKind} {tree : Stmt Unit}
    (derived : Declaration (.keyword .forWord :: later) tree) :
    ∃ (parts : LoopParts) (ending : Bool) (first : Option (Stmt Unit))
      (condition last : Option (Expr Unit)) (body : Stmt Unit),
      .keyword .forWord :: later = parts.loop ∧ tree = forLoop first condition last body ∧
        parts.Derived ending first condition last body := by
  generalize same : TokenKind.keyword .forWord :: later = phrase at derived
  cases derived with
  | declare declared => cases declared; cases same
  | function => cases same
  | statement stmt =>
    cases stmt with
    | @expression inner _ expr =>
      obtain ⟨kind, rest, rfl, starts⟩ := expr.begins
      cases same
      cases starts
    | forLoop first condition last body =>
      exact ⟨⟨_, _, _, _⟩, _, _, _, _, _, rfl, rfl, first, condition, last, body⟩
    | _ => cases same

end LoopParts
end

end Grammar

namespace Parser
open Grammar

/-- How a parser goes on that reads a form and reports nothing. All of what stands behind the form
is left. -/
theorem Exact.only {α : Type} {may : Language TokenKind → Prop} {form : Form} {parser : Parser α}
    {start : Progress} {accepted : α → Prop} {phrase rest other : List TokenKind} {used : Nat}
    (exactly : Exact may form parser start) (accepts : Accepts parser start accepted rest)
    (lasts : Lasts parser start used) (derived : phrase ∈ form.language)
    (stands : start.kinds = phrase ++ other) (allowed : may {other}) : rest = other := by
  have split : start.kinds ∈ form.language * {other} :=
    stands ▸ Language.append_mem_mul derived (Set.mem_singleton other)
  unfold Exact at exactly
  unfold Accepts at accepts
  unfold Lasts at lasts
  generalize parser start = result at exactly accepts lasts
  rcases result with ⟨value, stop⟩ | ⟨error | _, stop⟩
  · obtain ⟨-, left, -⟩ := accepts
    rw [← left]
    rcases exactly with ⟨read, whole, -, finished⟩ | ⟨reported, -, troubled⟩
    · rw [Progress.kinds_eq, whole, List.map_append, ← Progress.kinds_eq] at split
      exact finished.only {other} allowed stop.kinds rfl split
    · obtain ⟨read, token, later, whole, wrong, -⟩ := troubled
      rw [Progress.kinds_eq, whole, List.map_append, List.map_cons] at split
      exact absurd split (wrong.never {other} allowed _)
  · exact accepts.elim
  · exact lasts.elim

end Parser

namespace Grammar
open Form Lox.Parser

theorem Form.Derives.token {kinds : TokenKind → Prop} {some : ∃ kind, kinds kind} {form : Form}
    {kind : TokenKind} {phrase : List TokenKind} (holds : kinds kind) (behind : form.Derives phrase) :
    (Form.next (.one kinds some) form).Derives (kind :: phrase) :=
  .next (.one holds) behind

/-- Some parser stands at such tokens. -/
theorem exists_progress {kinds : List TokenKind} (some : kinds ≠ []) :
    ∃ start : Progress, start.kinds = kinds := by
  cases kinds with
  | nil => exact absurd rfl some
  | cons kind kinds =>
    refine ⟨Parsed.start ((kind :: kinds).map fun kind => ⟨kind, "", 0, .nowhere⟩), ?_⟩
    rw [Parsed.start_kinds (by simp), List.map_map]
    exact List.map_id _

section
variable {phrase front rest other : List TokenKind}

theorem FirstClause.only {first : Option (Stmt Unit)} (derived : FirstClause front first)
    (fits : phrase ∈ (oneOf (symbol .varDeclaration) [symbol .exprStatement, sign .semicolon]).language)
    (closed : Closed (phrase ++ other)) (same : front ++ rest = phrase ++ other) (more : rest ≠ []) :
    front = phrase ∧ rest = other := by
  obtain ⟨start, stands⟩ := exists_progress closed.ne_nil
  have closed := stands ▸ closed
  have accepts := firstClause_accepts (16 * start.left + 10) more derived (stands.trans same.symm)
  obtain rfl : rest = other := (firstClause_exact _ start closed).only accepts
    (firstClause_lasts closed (Nat.le_refl _)) fits stands trivial
  exact ⟨List.append_cancel_right same, rfl⟩

theorem Optional.only {closing : Symbol} {expr : Option (Expr Unit)} (derived : Optional front expr)
    (fits : phrase ∈ (maybe (symbol .expression)).language)
    (ends : closing = .semicolon ∨ closing = .rightParen)
    (closed : Closed (phrase ++ .symbol closing :: other))
    (same : front ++ .symbol closing :: rest = phrase ++ .symbol closing :: other)
    (more : rest ≠ []) : front = phrase ∧ rest = other := by
  obtain ⟨start, stands⟩ := exists_progress closed.ne_nil
  have within : Closed start.kinds := stands ▸ closed
  have whole : start.kinds = (phrase ++ [.symbol closing]) ++ other := by simpa using stands
  have clause : phrase ++ [.symbol closing] ∈
      (inOrder [.maybe (symbol .expression), sign closing]).language :=
    .next fits (.token rfl .nothing)
  obtain rfl : rest = other := by
    rcases ends with rfl | rfl
    · have accepts := conditionClause_accepts (16 * start.left + 10) more derived
        (stands.trans same.symm)
      exact (conditionClause_exact _ start within).only accepts
        (conditionClause_lasts within (Nat.le_refl _)) clause whole trivial
    · have accepts := lastClause_accepts (16 * start.left + 10) more derived
        (stands.trans same.symm)
      exact (lastClause_exact _ start within).only accepts
        (lastClause_lasts within (Nat.le_refl _)) clause whole trivial
  exact ⟨List.append_cancel_right same, rfl⟩

theorem Statement.only {ending : Bool} {body : Stmt Unit} (derived : Statement ending front body)
    (fits : phrase ∈ (symbol .statement).language) (closed : Closed (phrase ++ [.eof]))
    (same : front ++ rest = phrase ++ [.eof]) (more : rest ≠ [])
    (free : rest.head? ≠ some (.keyword .elseWord)) : front = phrase ∧ rest = [.eof] := by
  obtain ⟨start, stands⟩ := exists_progress closed.ne_nil
  have closed := stands ▸ closed
  have accepts := statement_accepts (16 * start.left + 11) derived (stands.trans same.symm) more
    fun _ => free
  have behind : ElseClosed {[.eof]} := by
    intro later member
    cases Set.mem_singleton_iff.mp member
  obtain rfl : rest = [.eof] := (statement_exact _ start closed).only accepts
    (statement_lasts _ start closed (Nat.le_refl _)) fits stands behind
  exact ⟨List.append_cancel_right same, rfl⟩

end

/-- A loop has only one set of parts, and no declarations stand behind it. -/
theorem LoopParts.Fit.only {parts inner : LoopParts} {ending : Bool} {first : Option (Stmt Unit)}
    {condition last : Option (Expr Unit)} {body : Stmt Unit} {more : List TokenKind}
    {trees : List (Stmt Unit)} (fit : parts.Fit)
    (derived : inner.Derived ending first condition last body) (further : Declarations more trees)
    (closed : Closed (parts.loop ++ [.eof]))
    (same : inner.loop ++ (more ++ [.eof]) = parts.loop ++ [.eof]) : inner = parts ∧ more = [] := by
  obtain ⟨front, middle, back, rest⟩ := inner
  obtain ⟨front', middle', back', rest'⟩ := parts
  obtain ⟨clause, test, step, round⟩ := derived
  obtain ⟨clause', test', step', round'⟩ := fit
  simp only [loop, List.cons_append, List.append_assoc, List.cons.injEq, true_and] at same closed
  have closed := (closed.tail (by simp)).tail (by simp)
  obtain ⟨first, same⟩ := clause.only clause' closed same (by simp)
  have closed := closed.of_append (by simp)
  obtain ⟨condition, same⟩ := test.only test' (.inl rfl) closed same (by simp)
  have closed := (closed.of_append (by simp)).tail (by simp)
  obtain ⟨last, same⟩ := step.only step' (.inr rfl) closed same (by simp)
  have closed := (closed.of_append (by simp)).tail (by simp)
  obtain ⟨body, ended⟩ := round.only round' closed same (by simp) (further.no_else [] (by simp))
  exact ⟨LoopParts.mk.injEq .. ▸ ⟨first, condition, last, body⟩, by simpa using ended⟩

end Grammar

/-- A source without faults is the program that is parsed. -/
theorem Program.ofSource_clean {source : String} {tokens : List Token}
    (scanned : (Scan.ofSource source).tokens = tokens) (lexes : (Scan.ofSource source).errors = [])
    (clean : (Parsed.ofTokens tokens).errors = []) :
    Program.ofSource source = .ok (Parsed.ofTokens tokens).program := by
  simp only [Program.ofSource, scanned, lexes, clean, List.map_nil, List.append_nil]

namespace Parsed
open Grammar Session Run

/-- A program that is a loop has the tree that its parts have. -/
theorem derived_of_loop {parts : LoopParts} {tokens : List Token} (fit : parts.Fit)
    (closed : Closed (tokens.map Token.kind))
    (written : tokens.map Token.kind = parts.loop ++ [.eof])
    (clean : (ofTokens tokens).errors = []) :
    ∃ ending first condition last body, parts.Derived ending first condition last body ∧
      (ofTokens tokens).program.map Stmt.bare = [forLoop first condition last body] := by
  obtain ⟨phrase, kinds, derived⟩ := derived_of_clean closed clean
  have whole : parts.loop ++ [.eof] = phrase ++ [.eof] := written.symm.trans kinds
  have same : phrase = parts.loop := (List.append_cancel_right whole).symm
  generalize (ofTokens tokens).program.map Stmt.bare = trees at derived ⊢
  cases derived with
  | nil => cases same
  | @cons front _ back _ first further =>
    obtain ⟨later, rfl⟩ : ∃ later, front = .keyword .forWord :: later := by
      obtain ⟨kind, later, rfl, -⟩ := first.begins
      obtain ⟨rfl, -⟩ := List.cons.inj same
      exact ⟨later, rfl⟩
    obtain ⟨inner, ending, _, _, _, _, split, rfl, parts'⟩ := LoopParts.of_declaration first
    rw [split] at same
    have whole : inner.loop ++ (back ++ [.eof]) = parts.loop ++ [.eof] := by
      rw [← List.append_assoc, same]
    obtain ⟨rfl, rfl⟩ := fit.only parts' further (written ▸ closed) whole
    obtain rfl := further.of_nil
    exact ⟨_, _, _, _, _, parts', rfl⟩

theorem expansion_same {parts : LoopParts} {tokens expanded : List Token} (fit : parts.Fit)
    (closed : Closed (tokens.map Token.kind))
    (written : tokens.map Token.kind = parts.loop ++ [.eof])
    (expands : expanded.map Token.kind = parts.expansion ++ [.eof])
    (clean : (ofTokens tokens).errors = []) :
    (ofTokens expanded).errors = [] ∧
      (ofTokens tokens).program.map Stmt.plain = (ofTokens expanded).program.map Stmt.plain := by
  obtain ⟨ending, _, _, _, _, derived, trees⟩ := derived_of_loop fit closed written clean
  have closed' : Closed (expanded.map Token.kind) :=
    expands ▸ closed_append_eof (LoopParts.eof_not_mem_expansion (written ▸ closed))
  have whole := Declarations.cons (.statement derived.expansion) .nil
  rw [List.append_nil] at whole
  obtain ⟨clean', trees'⟩ := clean_of_derived closed' expands whole
  exact ⟨clean', Stmt.plain_of_bare (trees.trans trees'.symm)⟩

/-- A `for` loop is its expansion. Where the loop is a program, the expansion is one with the same
text of its tree. Run in the same session, at every limit and budget, they print the same and report
the same, at other lines, and leave the session the same but for places. -/
theorem loop_is_its_expansion {parts : LoopParts} {tokens expanded : List Token} (fit : parts.Fit)
    (closed : Closed (tokens.map Token.kind))
    (written : tokens.map Token.kind = parts.loop ++ [.eof])
    (expands : expanded.map Token.kind = parts.expansion ++ [.eof])
    (clean : (ofTokens tokens).errors = []) :
    (ofTokens expanded).errors = [] ∧
      Stmt.programText (ofTokens expanded).program = Stmt.programText (ofTokens tokens).program ∧
      ∀ session other : Session, session.plain = other.plain → ∀ fuel,
        RunsAlike ((session.interpret fuel (ofTokens tokens).program).map diagnose)
            ((other.interpret fuel (ofTokens expanded).program).map diagnose) ∧
          ∀ source second, (Scan.ofSource source).tokens = tokens →
            (Scan.ofSource source).errors = [] → (Scan.ofSource second).tokens = expanded →
              (Scan.ofSource second).errors = [] →
                RunsAlike (session.run fuel source) (other.run fuel second) := by
  obtain ⟨clean', same⟩ := expansion_same fit closed written expands clean
  refine ⟨clean', Stmt.programText_of_plain same.symm, fun session other alike fuel => ?_⟩
  refine ⟨interpretsAlike alike same fuel, ?_⟩
  intro source second scanned lexes scanned' lexes'
  have accepted := Program.ofSource_clean scanned lexes clean
  have accepted' := Program.ofSource_clean scanned' lexes' clean'
  rw [run_eq_interpret accepted, run_eq_interpret accepted']
  exact interpretsAlike alike same fuel

/-- A loop around an open `if`, on one line, and its expansion on two. -/
theorem loop_is_its_expansion_open_if :
    let name : TokenKind := .identifier "a"
    let parts : LoopParts := ⟨[.symbol .semicolon], [name], [name], [.keyword .ifWord,
      .symbol .leftParen, name, .symbol .rightParen, .keyword .breakWord, .symbol .semicolon]⟩
    let source := "for (; a; a) if (a) break;"
    let second := "\x7b while (a)\n\x7b if (a) break; a; \x7d \x7d"
    let tokens := (Scan.ofSource source).tokens
    let expanded := (Scan.ofSource second).tokens
    parts.Fit ∧ Closed (tokens.map Token.kind) ∧ tokens.map Token.kind = parts.loop ++ [.eof] ∧
      expanded.map Token.kind = parts.expansion ++ [.eof] ∧ (ofTokens tokens).errors = [] ∧
      Stmt.programText (ofTokens expanded).program = Stmt.programText (ofTokens tokens).program ∧
      ∀ session : Session, ∀ fuel, RunsAlike (session.run fuel source) (session.run fuel second) := by
  intro name parts source second tokens expanded
  have variable' : [name] ∈ (Form.symbol .expression).language :=
    .symbol (.second (Form.name_derived "a" Level.all))
  have breaks : [.keyword .breakWord, .symbol .semicolon] ∈ (Form.symbol .statement).language :=
    .symbol (.second (.second (.second (.second (.second (.second (.first
      (.symbol (.token rfl (.token rfl .nothing))))))))))
  have without : (Form.inOrder [.maybe (.inOrder [.word .elseWord, .symbol .statement])]).Derives
      ([] ++ []) := .next .none .nothing
  have conditional : parts.body ∈ (Form.symbol .statement).language :=
    .symbol (.second (.second (.first (.symbol (.token rfl (.token rfl (.next variable'
      (.token rfl (.next breaks without)))))))))
  have fit : parts.Fit :=
    ⟨.second (.second (.one rfl)), .some variable', .some variable', conditional⟩
  have written : tokens.map Token.kind = parts.loop ++ [.eof] := by decide +kernel
  have expands : expanded.map Token.kind = parts.expansion ++ [.eof] := by decide +kernel
  have closed : Closed (tokens.map Token.kind) := by
    rw [written]
    exact closed_append_eof (by decide)
  have clean : (ofTokens tokens).errors = [] := by decide +kernel
  obtain ⟨-, same, runs⟩ := loop_is_its_expansion fit closed written expands clean
  refine ⟨fit, closed, written, expands, clean, same, fun session fuel => ?_⟩
  exact (runs session session rfl fuel).2 source second rfl (by decide +kernel) rfl (by decide +kernel)

end Parsed
end Lox
