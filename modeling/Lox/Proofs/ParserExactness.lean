import Lox.Proofs.GrammarForms
import Lox.Proofs.ParserSteps

/-! A parser that reads a form stops being right at the first token that nothing derived from the
form goes on with. What it reports comes from that token and those behind it. The lists of arguments
and parameters that are too long do not count: they are reported but still read. -/

namespace Lox
open Grammar

/-- The error is located at the token. -/
def ParseError.At (error : ParseError) (token : Token) : Prop :=
  error = .ofToken token error.code error.message

namespace Progress

/-- The errors so far, without lists that are too long. -/
def faults (progress : Progress) : List ParseError :=
  progress.errors.toList.filter fun error => error.code ≠ .tooManyEntries

theorem tokens_advanced {progress : Progress} (closed : Closed progress.kinds)
    (moving : progress.here ≠ .eof) :
    progress.tokens = [progress.cursor.current] ++ progress.advanced.tokens := by
  have inside : ¬ progress.cursor.atEnd = true := mt Cursor.atEnd_iff.mp moving
  have some : progress.cursor.ahead.map Token.kind ≠ [] := (closed.tail moving).ne_nil
  rw [advanced, Cursor.advance, if_neg inside]
  cases ahead : progress.cursor.ahead with
  | nil => simp [ahead] at some
  | cons next rest => simp [tokens, ahead]

end Progress

namespace Cursor

theorem advance_suffix (cursor : Cursor) :
    cursor.advance.current :: cursor.advance.ahead <:+ cursor.current :: cursor.ahead := by
  unfold advance
  split
  · exact List.suffix_refl _
  · split
    next => exact List.suffix_refl _
    next next ahead same => rw [same]; exact List.suffix_cons _ _

private theorem skip_suffix (previous current : Token) (ahead : List Token) :
    (skip previous current ahead).current :: (skip previous current ahead).ahead <:+
      current :: ahead := by
  fun_induction skip previous current ahead with
  | case1 => exact List.suffix_refl _
  | case2 => exact List.suffix_refl _
  | case3 previous current next ahead _ _ ih => exact ih.trans (List.suffix_cons _ _)

theorem synchronize_suffix (cursor : Cursor) :
    cursor.synchronize.current :: cursor.synchronize.ahead <:+ cursor.current :: cursor.ahead :=
  (skip_suffix _ _ _).trans cursor.advance_suffix

end Cursor

namespace Grammar

/-- The form has been read. With such languages behind it, what comes next belongs to them. -/
structure Finished (may : Language TokenKind → Prop) (form : Form) (read : List TokenKind)
    (next : TokenKind) : Prop where
  derived : read ∈ form.language
  only : ∀ behind, may behind → ∀ later, later.head? = some next →
    read ++ later ∈ form.language * behind → later ∈ behind

/-- The form has been read in part, and the next token does not fit. -/
structure Wrong (may : Language TokenKind → Prop) (form : Form) (read : List TokenKind)
    (next : TokenKind) : Prop where
  begun : ∃ rest, read ++ rest ∈ form.language
  never : ∀ behind, may behind → ∀ later, read ++ next :: later ∉ form.language * behind

variable {may may' : Language TokenKind → Prop} {first second : Form} {read back : List TokenKind}
  {here next : TokenKind}

/-- What begins a form begins every form that it is the first part of. -/
theorem Wrong.before (wrong : Wrong may first read next)
    (fits : ∀ behind, may' behind → may (second.language * behind)) :
    Wrong may' (.next first second) read next := by
  constructor
  · obtain ⟨rest, derived⟩ := wrong.begun
    obtain ⟨phrase, further⟩ := second.productive
    refine ⟨rest ++ phrase, ?_⟩
    rw [Form.language_next, ← List.append_assoc]
    exact Language.append_mem_mul derived further
  · intro behind allowed later member
    rw [Form.language_next, mul_assoc] at member
    exact wrong.never _ (fits behind allowed) later member

theorem Finished.one {kinds : TokenKind → Prop} {some : ∃ kind, kinds kind} {kind : TokenKind}
    (holds : kinds kind) : Finished (fun _ => True) (.one kinds some) [kind] next := by
  refine ⟨.one holds, fun behind _ later _ member => ?_⟩
  obtain ⟨front, single, back, inside, same⟩ := Language.mem_mul.mp member
  obtain ⟨other, rfl, -⟩ := Form.mem_one.mp single
  obtain ⟨-, rfl⟩ := List.cons.inj same
  exact inside

theorem head?_append_cons {later : List TokenKind} {others : List TokenKind}
    (split : (back ++ next :: others).head? = some here) :
    (back ++ next :: later).head? = some here := by
  cases back with
  | nil => simpa using split
  | cons kind back => simpa using split

theorem Finished.behind_wrong (finished : Finished may first read here)
    (wrong : Wrong may' second back next) {others : List TokenKind}
    (split : (back ++ next :: others).head? = some here)
    (fits : ∀ behind, may' behind → may (second.language * behind)) :
    Wrong may' (.next first second) (read ++ back) next := by
  constructor
  · obtain ⟨rest, derived⟩ := wrong.begun
    refine ⟨rest, ?_⟩
    rw [Form.language_next, List.append_assoc]
    exact Language.append_mem_mul finished.derived derived
  · intro behind allowed later member
    rw [Form.language_next, mul_assoc, List.append_assoc] at member
    have rest := finished.only _ (fits behind allowed) _ (head?_append_cons split) member
    exact wrong.never behind allowed later rest

theorem Finished.behind (finished : Finished may first read here)
    (further : Finished may' second back next) {others : List TokenKind}
    (split : (back ++ next :: others).head? = some here)
    (fits : ∀ behind, may' behind → may (second.language * behind)) :
    Finished may' (.next first second) (read ++ back) next := by
  constructor
  · rw [Form.language_next]
    exact Language.append_mem_mul finished.derived further.derived
  · intro behind allowed later starts member
    rw [Form.language_next, mul_assoc, List.append_assoc] at member
    obtain ⟨tail, rfl⟩ : ∃ tail, later = next :: tail := List.head?_eq_some_iff.mp starts
    have rest := finished.only _ (fits behind allowed) _ (head?_append_cons split) member
    exact further.only behind allowed _ starts rest

end Grammar

theorem Closed.of_append {front back : List TokenKind} (closed : Closed (front ++ back))
    (some : back ≠ []) : Closed back := by
  induction front with
  | nil => exact closed
  | cons kind front ih =>
    rw [List.cons_append] at closed
    refine ih (closed.tail fun last => ?_)
    subst last
    exact some (List.append_eq_nil_iff.mp closed.eof_last).2

namespace Parser

variable {α β : Type}

/-- Where reading a form went wrong, what is left to read, and what was reported since. An `=`
behind something that cannot be assigned to is only reported when its value has been read. -/
inductive Troubled (may : Language TokenKind → Prop) (form : Form) (tokens left : List Token)
    (reported : List ParseError) : Prop where
  | intro (read : List Token) (token : Token) (later : List Token)
    (split : tokens = read ++ token :: later)
    (wrong : Wrong may form (read.map Token.kind) token.kind) (left : left <:+ token :: later)
    (located : ∀ error ∈ reported, ∃ other ∈ token :: later, error.At other)
    (first : token.kind ≠ .symbol .equal → ∃ error rest, reported = error :: rest ∧ error.At token)

/-- What the result of reading a form says of the tokens. -/
def Judges (may : Language TokenKind → Prop) (form : Form) (start : Progress) :
    EStateM.Result Halt Progress α → Prop
  | .ok _ stop =>
    (∃ read, start.tokens = read ++ stop.tokens ∧ stop.faults = start.faults ∧
      Finished may form (read.map Token.kind) stop.here) ∨
    ∃ reported, stop.faults = start.faults ++ reported ∧
      Troubled may form start.tokens stop.tokens reported
  | .error (.failed error) stop => error.code ≠ .tooManyEntries ∧
    ∃ reported, stop.faults ++ [error] = start.faults ++ reported ∧
      Troubled may form start.tokens stop.tokens reported
  | .error .exhausted _ => True

def Exact (may : Language TokenKind → Prop) (form : Form) (parser : Parser α) (start : Progress) :
    Prop :=
  Judges may form start (parser start)

/-- Whatever is reported comes from the tokens that were left, some of which are still left. -/
def Located (start : Progress) : EStateM.Result Halt Progress α → Prop
  | .ok _ stop => stop.tokens <:+ start.tokens ∧ ∃ reported,
    stop.faults = start.faults ++ reported ∧ ∀ error ∈ reported, ∃ token ∈ start.tokens, error.At token
  | .error (.failed error) stop => error.code ≠ .tooManyEntries ∧ stop.tokens <:+ start.tokens ∧
    ∃ reported, stop.faults ++ [error] = start.faults ++ reported ∧
      ∀ error ∈ reported, ∃ token ∈ start.tokens, error.At token
  | .error .exhausted _ => True

variable {may may' : Language TokenKind → Prop} {form form' first second : Form}
  {start middle : Progress} {parser : Parser α} {next : α → Parser β}

theorem Troubled.located {tokens left : List Token} {reported : List ParseError}
    (troubled : Troubled may form tokens left reported) :
    left <:+ tokens ∧ ∀ error ∈ reported, ∃ token ∈ tokens, error.At token := by
  obtain ⟨read, token, later, rfl, -, suffix, located, -⟩ := troubled
  refine ⟨suffix.trans (List.suffix_append read _), fun error member => ?_⟩
  obtain ⟨other, inside, same⟩ := located error member
  exact ⟨other, List.mem_append_right read inside, same⟩

theorem Judges.located {result : EStateM.Result Halt Progress α}
    (judges : Judges may form start result) : Located start result := by
  rcases result with ⟨value, stop⟩ | ⟨error | _, stop⟩
  · rcases judges with ⟨read, split, faults, -⟩ | ⟨reported, faults, troubled⟩
    · exact ⟨⟨read, split.symm⟩, [], by simpa using faults, by simp⟩
    · exact ⟨troubled.located.1, reported, faults, troubled.located.2⟩
  · obtain ⟨other, reported, faults, troubled⟩ := judges
    exact ⟨other, troubled.located.1, reported, faults, troubled.located.2⟩
  · trivial

/-- What is read later only reports more. -/
theorem Troubled.goesOn {reported : List ParseError} {result : EStateM.Result Halt Progress β}
    (troubled : Troubled may form start.tokens middle.tokens reported)
    (faults : middle.faults = start.faults ++ reported) (located : Located middle result) :
    Judges may form start result := by
  obtain ⟨read, token, later, split, wrong, left, come, first⟩ := troubled
  have more (stop : List Token) (further : List ParseError) (left' : stop <:+ middle.tokens)
      (from' : ∀ error ∈ further, ∃ token ∈ middle.tokens, error.At token) :
      Troubled may form start.tokens stop (reported ++ further) := by
    refine ⟨read, token, later, split, wrong, left'.trans left, fun error member => ?_, ?_⟩
    · rcases List.mem_append.mp member with member | member
      · exact come error member
      · obtain ⟨other, inside, same⟩ := from' error member
        exact ⟨other, left.subset inside, same⟩
    · intro other
      obtain ⟨error, rest, rfl, same⟩ := first other
      exact ⟨error, rest ++ further, rfl, same⟩
  rcases result with ⟨value, stop⟩ | ⟨error | _, stop⟩
  · obtain ⟨left', further, faults', from'⟩ := located
    exact .inr ⟨_, by rw [faults', faults, List.append_assoc], more _ _ left' from'⟩
  · obtain ⟨other, left', further, faults', from'⟩ := located
    exact ⟨other, _, by rw [faults', faults, List.append_assoc], more _ _ left' from'⟩
  · trivial

namespace Located

theorem advanced {result : EStateM.Result Halt Progress α} (closed : Closed start.kinds)
    (moving : start.here ≠ .eof) (located : Located start.advanced result) : Located start result := by
  have split := Progress.tokens_advanced closed moving
  have inside {errors : List ParseError} (from' : ∀ error ∈ errors, ∃ token ∈ start.advanced.tokens,
      error.At token) : ∀ error ∈ errors, ∃ token ∈ start.tokens, error.At token := by
    intro error member
    obtain ⟨token, later, same⟩ := from' error member
    exact ⟨token, split ▸ List.mem_append_right _ later, same⟩
  have suffix : start.advanced.tokens <:+ start.tokens := ⟨_, split.symm⟩
  rcases result with ⟨value, stop⟩ | ⟨error | _, stop⟩
  · obtain ⟨left, reported, faults, from'⟩ := located
    exact ⟨left.trans suffix, reported, faults, inside from'⟩
  · obtain ⟨other, left, reported, faults, from'⟩ := located
    exact ⟨other, left.trans suffix, reported, faults, inside from'⟩
  · trivial

/-- What is added behind a parser reads nothing. -/
theorem bind {reached : Progress} (located : Located start (parser reached))
    (adds : ∀ value middle, ∃ last errors,
      next value middle = .ok last ⟨middle.cursor, middle.errors ++ errors⟩ ∧
        ∀ error ∈ errors, ∃ token ∈ start.tokens, error.At token) :
    Located start ((parser >>= next) reached) := by
  cases ran : parser reached with
  | error halt middle =>
    rw [ran] at located
    rw [Sequencing.bind_error ran]
    cases halt <;> exact located
  | ok value middle =>
    rw [ran] at located
    obtain ⟨last, errors, further, here⟩ := adds value middle
    rw [Sequencing.bind_ok ran, further]
    obtain ⟨left, reported, faults, from'⟩ := located
    refine ⟨left, reported ++ errors.toList.filter (·.code ≠ .tooManyEntries), ?_, ?_⟩
    · rw [← List.append_assoc, ← faults]
      simp [Progress.faults]
    · intro error member
      rcases List.mem_append.mp member with member | member
      · exact from' error member
      · exact here error (Array.mem_def.mpr (List.mem_filter.mp member).1)

end Located

/-- Reading a form that is a part of another, behind some tokens that have been read. -/
theorem Judges.behind {front : List Token} {result : EStateM.Result Halt Progress α}
    (judges : Judges may form middle result) (split : start.tokens = front ++ middle.tokens)
    (faults : middle.faults = start.faults)
    (finished : ∀ read next later, middle.kinds = read ++ next :: later →
      Finished may form read next → Finished may' form' (front.map Token.kind ++ read) next)
    (wrong : ∀ read next later, middle.kinds = read ++ next :: later →
      Wrong may form read next → Wrong may' form' (front.map Token.kind ++ read) next) :
    Judges may' form' start result := by
  have troubles {left : List Token} {reported : List ParseError}
      (troubled : Troubled may form middle.tokens left reported) :
      Troubled may' form' start.tokens left reported := by
    obtain ⟨read, token, later, split', wrong', left, located, first⟩ := troubled
    refine ⟨front ++ read, token, later, by rw [split, split', List.append_assoc], ?_, left,
      located, first⟩
    rw [List.map_append]
    exact wrong _ _ (later.map Token.kind) (by rw [Progress.kinds_eq, split']; simp) wrong'
  rcases result with ⟨value, stop⟩ | ⟨error | _, stop⟩
  · rcases judges with ⟨read, split', faults', finished'⟩ | ⟨reported, faults', troubled⟩
    · refine .inl ⟨front ++ read, by rw [split, split', List.append_assoc], faults'.trans faults, ?_⟩
      rw [List.map_append]
      exact finished _ _ (stop.cursor.ahead.map Token.kind)
        (by rw [Progress.kinds_eq, split', List.map_append]; rfl) finished'
    · exact .inr ⟨reported, by rw [faults', faults], troubles troubled⟩
  · obtain ⟨other, reported, faults', troubled⟩ := judges
    exact ⟨other, reported, by rw [faults', faults], troubles troubled⟩
  · trivial

namespace Exact

/-- One form behind another. -/
theorem bind (closed : Closed start.kinds) (before : Exact may first parser start)
    (goesOn : ∀ value stop, parser start = .ok value stop → Closed stop.kinds →
      Exact may' second (next value) stop)
    (fits : ∀ behind, may' behind → may (second.language * behind)) :
    Exact may' (.next first second) (parser >>= next) start := by
  have judges : Judges may first start (parser start) := before
  unfold Exact
  cases ran : parser start with
  | error halt stop =>
    rw [ran] at judges
    rw [Sequencing.bind_error ran]
    cases halt with
    | exhausted => trivial
    | failed error =>
      obtain ⟨other, reported, faults, read, token, later, split, wrong, left, come, earliest⟩ := judges
      exact ⟨other, reported, faults, read, token, later, split, wrong.before fits, left, come,
        earliest⟩
  | ok value stop =>
    rw [ran] at judges
    rw [Sequencing.bind_ok ran]
    have left : stop.tokens <:+ start.tokens := judges.located.1
    have closed' : Closed stop.kinds := by
      obtain ⟨read, split⟩ := left
      rw [Progress.kinds_eq, ← split, List.map_append] at closed
      exact closed.of_append (List.cons_ne_nil _ _)
    have after := goesOn value stop ran closed'
    rcases judges with ⟨read, split, faults, finished⟩ | ⟨reported, faults, troubled⟩
    · refine Judges.behind after split faults ?_ ?_
      · intro back next later stands further
        exact finished.behind further (by rw [← stands]; rfl) fits
      · intro back next later stands wrong
        exact finished.behind_wrong wrong (by rw [← stands]; rfl) fits
    · obtain ⟨read, token, later, split, wrong, left, come, earliest⟩ := troubled
      exact Troubled.goesOn ⟨read, token, later, split, wrong.before fits, left, come, earliest⟩
        faults after.located

/-- Another form that says the same of the tokens from here on. -/
theorem mono (exact : Exact may form parser start)
    (finished : ∀ read next later, start.kinds = read ++ next :: later →
      Finished may form read next → Finished may' form' read next)
    (wrong : ∀ read next later, start.kinds = read ++ next :: later →
      Wrong may form read next → Wrong may' form' read next) : Exact may' form' parser start :=
  Judges.behind exact (List.nil_append _).symm rfl finished wrong

/-- A wider form, of which only the narrower can begin with the current token. -/
theorem widen (exact : Exact may form parser start)
    (contains : ∀ phrase ∈ form.language, phrase ∈ form'.language)
    (allows : ∀ behind, may' behind → may behind)
    (only : ∀ behind, may' behind → ∀ later, start.here :: later ∈ form'.language * behind →
      start.here :: later ∈ form.language * behind) : Exact may' form' parser start := by
  have begins {read later others : List TokenKind} {next : TokenKind}
      (stands : start.kinds = read ++ next :: others) (starts : later.head? = some next) :
      ∃ tail, read ++ later = start.here :: tail := by
    obtain ⟨tail, rfl⟩ : ∃ tail, later = next :: tail := List.head?_eq_some_iff.mp starts
    have here : (read ++ next :: others).head? = some start.here := by rw [← stands]; rfl
    exact List.head?_eq_some_iff.mp (head?_append_cons here)
  refine exact.mono (fun read next others stands finished => ?_) fun read next others stands wrong => ?_
  · refine ⟨contains _ finished.derived, fun behind allowed later starts member => ?_⟩
    obtain ⟨tail, same⟩ := begins stands starts
    rw [same] at member
    have narrow := only behind allowed tail member
    rw [← same] at narrow
    exact finished.only behind (allows behind allowed) later starts narrow
  · refine ⟨wrong.begun.imp fun rest => contains _, fun behind allowed later member => ?_⟩
    have starts : (next :: later).head? = some next := rfl
    obtain ⟨tail, same⟩ := begins stands starts
    rw [same] at member
    have narrow := only behind allowed tail member
    rw [← same] at narrow
    exact wrong.never behind (allows behind allowed) later narrow

theorem congr (exact : Exact may form parser start) (same : form'.language = form.language) :
    Exact may form' parser start :=
  exact.widen (fun _ derived => same ▸ derived) (fun _ allowed => allowed)
    fun _ _ _ member => same ▸ member

theorem symbol {name : Nonterminal} (exact : Exact may name.rule parser start) :
    Exact may (.symbol name) parser start :=
  exact.congr (Form.language_symbol name)

theorem rule {name : Nonterminal} (exact : Exact may (.symbol name) parser start) :
    Exact may name.rule parser start :=
  exact.congr (Form.language_symbol name).symm

theorem single (exact : Exact may (.next form .nothing) parser start) : Exact may form parser start :=
  exact.congr (by rw [Form.language_next, Form.language_nothing, mul_one])

theorem last (exact : Exact may form parser start) : Exact may (.next form .nothing) parser start :=
  exact.congr (by rw [Form.language_next, Form.language_nothing, mul_one])

/-- The first parts of a form as one. -/
theorem gather (front : List Form) {rest : Form}
    (exact : Exact may (.next (Form.inOrder front) rest) parser start) :
    Exact may (front.foldr .next rest) parser start :=
  exact.congr (by rw [Form.language_next, Form.language_foldr])

theorem flatten {front : List Form} {rest : Form}
    (exact : Exact may (front.foldr .next rest) parser start) :
    Exact may (.next (Form.inOrder front) rest) parser start :=
  exact.congr (by rw [Form.language_next, Form.language_foldr])

section
variable {starts : TokenKind → Prop}

theorem left (exact : Exact may first parser start) (opens : second.Opens starts)
    (other : ¬ starts start.here) : Exact may (.either first second) parser start :=
  exact.widen (fun _ => .first) (fun _ allowed => allowed) fun _ _ _ member =>
    (Form.mem_either.mp member).resolve_right fun member => other (opens.begins member)

theorem right (exact : Exact may second parser start) (opens : first.Opens starts)
    (other : ¬ starts start.here) : Exact may (.either first second) parser start :=
  exact.widen (fun _ => .second) (fun _ allowed => allowed) fun _ _ _ member =>
    (Form.mem_either.mp member).resolve_left fun member => other (opens.begins member)

/-- One of several forms, of which no other begins with the current token. -/
theorem among {forms : List Form} {starts : Form → TokenKind → Prop}
    (exact : Exact may form parser start) (inside : form ∈ first :: forms) (opens : ∀ other ∈ first :: forms, other.Opens (starts other))
    (unique : ∀ other, starts other start.here → other = form) :
    Exact may (Form.oneOf first forms) parser start := by
  refine exact.widen (fun phrase derived => ?_) (fun _ allowed => allowed) fun _ _ _ member => ?_
  · rw [← mul_one form.language] at derived
    rw [← mul_one (Form.oneOf first forms).language]
    exact Form.mem_oneOf.mpr ⟨form, inside, derived⟩
  · obtain ⟨other, among, member⟩ := Form.mem_oneOf.mp member
    exact unique other ((opens other among).begins member) ▸ member

theorem skip (exact : Exact may .nothing parser start) (opens : form.Opens starts)
    (other : ¬ starts start.here) : Exact may (.maybe form) parser start := by
  refine exact.widen (fun phrase derived => ?_) (fun _ allowed => allowed) fun _ _ _ member => ?_
  · cases derived
    exact .none
  · rw [Form.language_nothing, one_mul]
    exact (Form.mem_maybe.mp member).resolve_right fun member => other (opens.begins member)

theorem take (exact : Exact may form parser start)
    (fits : ∀ behind, may behind → ∀ later, start.here :: later ∈ behind →
      start.here :: later ∈ form.language * behind) : Exact may (.maybe form) parser start :=
  exact.widen (fun _ => .some) (fun _ allowed => allowed) fun behind allowed later member =>
    (Form.mem_maybe.mp member).elim (fits behind allowed later) id

theorem done (exact : Exact may second parser start) (opens : form.Opens starts)
    (other : ¬ starts start.here) : Exact may (.next (.many form) second) parser start := by
  refine exact.widen (fun phrase derived => ?_) (fun _ allowed => allowed) fun _ _ _ member => ?_
  · exact .next .done derived
  · rw [Form.language_next, mul_assoc] at member
    exact (Form.mem_many.mp member).resolve_right fun member => other (opens.begins member)

theorem more (exact : Exact may (.next form (.next (.many form) second)) parser start)
    (other : ∀ behind, may behind → ∀ later, start.here :: later ∉ second.language * behind) :
    Exact may (.next (.many form) second) parser start := by
  refine exact.widen (fun phrase derived => ?_) (fun _ allowed => allowed)
    fun behind allowed later member => ?_
  · rw [Form.language_next, Form.language_next, ← mul_assoc] at derived
    rw [Form.language_next, Form.language_many, add_mul]
    exact .inr derived
  · rw [Form.language_next, mul_assoc] at member
    rw [Form.language_next, Form.language_next, mul_assoc, mul_assoc]
    exact (Form.mem_many.mp member).resolve_left (other behind allowed later)

end

/-- Fewer languages may come behind. -/
theorem restrict (exact : Exact may form parser start)
    (allows : ∀ behind, may' behind → may behind) : Exact may' form parser start :=
  exact.widen (fun _ derived => derived) allows fun _ _ _ member => member

/-- Two tokens tell that only the narrower form can be meant. -/
theorem widen_two (exact : Exact may form parser start)
    (contains : ∀ phrase ∈ form.language, phrase ∈ form'.language) (some : [] ∉ form.language)
    (allows : ∀ behind, may' behind → may behind)
    (can : ∀ behind, ∀ later, start.here :: later ∈ form'.language * behind →
      ∃ other, start.here :: other ∈ form.language * behind)
    (only : ∀ behind, may' behind → ∀ later, later.head? = start.kinds.tail.head? →
      start.here :: later ∈ form'.language * behind →
      start.here :: later ∈ form.language * behind) : Exact may' form' parser start := by
  have whole : start.kinds = start.here :: start.kinds.tail := rfl
  refine exact.mono (fun read next others stands finished => ?_) fun read next others stands wrong => ?_
  · refine ⟨contains _ finished.derived, fun behind allowed later starts member => ?_⟩
    refine finished.only behind (allows behind allowed) later starts ?_
    cases read with
    | nil => exact absurd finished.derived some
    | cons kind read =>
      obtain ⟨rfl, rest⟩ := List.cons.inj (whole.symm.trans stands)
      refine only behind allowed _ ?_ member
      cases read <;> simp [rest, starts]
  · refine ⟨wrong.begun.imp fun rest => contains _, fun behind allowed later member => ?_⟩
    cases read with
    | nil =>
      obtain ⟨rfl, -⟩ := List.cons.inj (whole.symm.trans stands)
      obtain ⟨other, member⟩ := can behind later member
      exact wrong.never behind (allows behind allowed) other member
    | cons kind read =>
      obtain ⟨rfl, rest⟩ := List.cons.inj (whole.symm.trans stands)
      refine wrong.never behind (allows behind allowed) later (only behind allowed _ ?_ member)
      cases read <;> simp [rest]

theorem anywhere (exact : Exact (fun _ => True) form parser start) : Exact may form parser start :=
  exact.restrict fun _ _ => trivial

theorem pure {value : α} : Exact may .nothing (Pure.pure value) start := by
  refine .inl ⟨[], rfl, rfl, .nothing, fun behind _ later _ member => ?_⟩
  rwa [Form.language_nothing, one_mul] at member

theorem exhausted : Exact may form (throw .exhausted : Parser α) start := trivial

theorem fail {error : ParseError} (ran : parser start = .error (.failed error) start)
    (here : error.At start.cursor.current) (other : error.code ≠ .tooManyEntries)
    (never : ∀ behind, may behind → ∀ later, start.here :: later ∉ form.language * behind) :
    Exact may form parser start := by
  unfold Exact
  rw [ran]
  obtain ⟨phrase, derived⟩ := form.productive
  have wrong : Wrong may form [] start.here := ⟨⟨phrase, derived⟩, never⟩
  refine ⟨other, [error], rfl, [], start.cursor.current, start.cursor.ahead, rfl, wrong,
    List.suffix_refl _, fun error member => ?_, fun _ => ⟨error, [], rfl, here⟩⟩
  obtain rfl := List.mem_singleton.mp member
  exact ⟨_, List.mem_cons_self, here⟩

/-- Where nothing more is to be read, an `=` may be reported late or not at all. -/
theorem misplaced (equals : start.here = .symbol .equal)
    (never : ∀ behind, may behind → ∀ later, .symbol .equal :: later ∉ behind)
    (located : Located start (parser start)) : Exact may .nothing parser start := by
  have wrong : Wrong may .nothing [] start.here := by
    refine ⟨⟨[], .nothing⟩, fun behind allowed later member => ?_⟩
    rw [Form.language_nothing, one_mul, equals] at member
    exact never behind allowed later member
  have troubled {left : List Token} {reported : List ParseError} (suffix : left <:+ start.tokens)
      (from' : ∀ error ∈ reported, ∃ token ∈ start.tokens, error.At token) :
      Troubled may .nothing start.tokens left reported :=
    ⟨[], start.cursor.current, start.cursor.ahead, rfl, wrong, suffix, from',
      fun other => absurd equals other⟩
  unfold Exact
  cases ran : parser start with
  | ok value stop =>
    rw [ran] at located
    obtain ⟨left, reported, faults, from'⟩ := located
    exact .inr ⟨reported, faults, troubled left from'⟩
  | error halt stop =>
    rw [ran] at located
    cases halt with
    | exhausted => trivial
    | failed error =>
      obtain ⟨other, left, reported, faults, from'⟩ := located
      exact ⟨other, reported, faults, troubled left from'⟩

/-- A parser that only looks. -/
theorem look {value : α} (seen : parser start = .ok value start)
    (goesOn : Exact may form (next value) start) : Exact may form (parser >>= next) start := by
  unfold Exact at goesOn ⊢
  rwa [Sequencing.bind_ok seen]

/-- A token has been read in front of a form. -/
theorem token {kinds : TokenKind → Prop} {some : ∃ kind, kinds kind} {rest : Parser α}
    (closed : Closed start.kinds) (holds : kinds start.here) (moving : start.here ≠ .eof)
    (ran : parser start = rest start.advanced)
    (after : ∀ stop, Closed (Progress.kinds stop) → Exact may form rest stop) :
    Exact may (.next (.one kinds some) form) parser start := by
  have judges := after start.advanced (Progress.kinds_advanced closed moving).2
  unfold Exact at judges ⊢
  rw [ran]
  refine Judges.behind judges (Progress.tokens_advanced closed moving) rfl ?_ ?_
  · intro read next later stands finished
    exact (Finished.one holds).behind finished (by rw [← stands]; rfl) fun _ _ => trivial
  · intro read next later stands wrong
    exact (Finished.one holds).behind_wrong wrong (by rw [← stands]; rfl) fun _ _ => trivial

variable {kind : TokenKind} {some : ∃ other, other = kind} {message : String}

theorem advance {kinds : TokenKind → Prop} {some : ∃ kind, kinds kind} {next : Unit → Parser α}
    (closed : Closed start.kinds) (holds : kinds start.here) (moving : start.here ≠ .eof)
    (goesOn : ∀ stop, Closed (Progress.kinds stop) → Exact may form (next ()) stop) :
    Exact may (.next (.one kinds some) form) (Parser.advance >>= next) start :=
  .token closed holds moving rfl goesOn

theorem eat {yes no : Parser α} (closed : Closed start.kinds) (fixed : kind.Fixed)
    (stands : start.here = kind)
    (goesOn : ∀ stop, Closed (Progress.kinds stop) → Exact may form yes stop) :
    Exact may (.next (.one (· = kind) some) form)
      (Parser.eat kind >>= fun eaten => if eaten then yes else no) start :=
  .token closed stands (stands ▸ fixed.ne_eof)
    (by rw [Sequencing.bind_ok (eat_taken fixed stands)]; rfl) goesOn

theorem eat_not {yes no : Parser α} (fixed : kind.Fixed) (other : start.here ≠ kind)
    (goesOn : Exact may form no start) :
    Exact may form (Parser.eat kind >>= fun eaten => if eaten then yes else no) start :=
  .look (eat_other fixed other) goesOn

theorem check {yes no : Parser α} (fixed : kind.Fixed)
    (found : start.here = kind → Exact may form yes start)
    (other : start.here ≠ kind → Exact may form no start) :
    Exact may form (Parser.check kind >>= fun found => if found then yes else no) start := by
  refine .look rfl ?_
  by_cases stands : start.here = kind
  · rw [if_pos (show start.cursor.check kind = true from fixed.same_iff.mpr stands)]
    exact found stands
  · rw [if_neg (show ¬ start.cursor.check kind = true from mt fixed.same_iff.mp stands)]
    exact other stands

/-- What may be left out, in front of a token that tells whether it is. -/
theorem optional {value : α} {starts : TokenKind → Prop} (fixed : kind.Fixed)
    (opens : form.Opens starts) (closes : ¬ starts kind) (exact : Exact may form parser start)
    (allows : ∀ behind, Form.Avoids (· ≠ kind) behind → may behind) :
    Exact (Form.Avoids (· ≠ kind)) (.maybe form)
      (Parser.check kind >>= fun found => if found then Pure.pure value else parser) start := by
  refine .check fixed (fun stands => ?_) fun other => ?_
  · exact .skip .pure opens (stands ▸ closes)
  · exact .take (exact.restrict allows) fun _ avoids later member =>
      absurd member (avoids _ other later)

theorem expect {next : Token → Parser α} (closed : Closed start.kinds) (fixed : kind.Fixed)
    (goesOn : ∀ token stop, Closed (Progress.kinds stop) → Exact may form (next token) stop) :
    Exact may (.next (.one (· = kind) some) form) (Parser.expect kind message >>= next) start := by
  by_cases stands : start.here = kind
  · exact .token closed stands (stands ▸ fixed.ne_eof)
      (Sequencing.bind_ok (expect_taken fixed stands)) (goesOn start.cursor.current)
  · refine .fail (Sequencing.bind_error (expect_other fixed stands)) rfl nofun ?_
    intro behind _ later member
    have same := Form.here_of_one member
    exact stands same

theorem expectName {next : String → Parser α} (closed : Closed start.kinds)
    (goesOn : ∀ name stop, Closed (Progress.kinds stop) → Exact may form (next name) stop) :
    Exact may (.next Form.name form) (Parser.expectName message >>= next) start := by
  by_cases named : ∃ name, start.here = .identifier name
  · obtain ⟨name, stands⟩ := named
    exact .token closed ⟨name, stands⟩ (by simp [stands])
      (Sequencing.bind_ok (expectName_taken stands)) (goesOn name)
  · refine .fail (Sequencing.bind_error (expectName_other (not_exists.mp named))) rfl nofun ?_
    intro behind _ later member
    exact named (Form.here_of_one member)

theorem map {f : α → β} (exact : Exact may form parser start) :
    Exact may form (f <$> parser) start := by
  unfold Exact at exact ⊢
  rw [map_eq_pure_bind]
  cases ran : parser start with
  | error halt stop =>
    rw [ran] at exact
    rw [Sequencing.bind_error ran]
    cases halt <;> exact exact
  | ok value stop =>
    rw [ran] at exact
    rw [Sequencing.bind_ok ran]
    exact exact

theorem choose {test : Parser Bool} {yes no : Parser α} (closed : Closed start.kinds)
    (before : Exact may first (test >>= fun holds => if holds then yes else no) start)
    (goesOn : ∀ value stop, Closed (Progress.kinds stop) → Exact may' second (next value) stop)
    (fits : ∀ behind, may' behind → may (second.language * behind)) :
    Exact may' (.next first second)
      (test >>= fun holds => if holds then yes >>= next else no >>= next) start := by
  rw [if_then_rest]
  exact .bind closed before (fun value stop _ => goesOn value stop) fits

/-- A list that is too long is no fault. -/
theorem warn {condition : Prop} [Decidable condition] {text : String}
    (goesOn : ∀ stop : Progress, stop.kinds = start.kinds → Exact may form parser stop) :
    Exact may form (if condition then reportHere .tooManyEntries text >>= fun _ => parser else parser)
      start := by
  split
  · have judges := goesOn ⟨start.cursor, start.errors.push
      (start.cursor.errorHere .tooManyEntries text)⟩ rfl
    refine Judges.behind judges (List.nil_append _).symm ?_ (fun _ _ _ _ finished => finished)
      fun _ _ _ _ wrong => wrong
    simp [Progress.faults, Cursor.errorHere, ParseError.ofToken]
  · exact goesOn start rfl

theorem recover (exact : Exact may form parser start) :
    Exact may form (Parser.recover parser) start := by
  unfold Exact Parser.recover at *
  cases ran : parser start with
  | ok value stop =>
    rw [ran] at exact
    exact exact
  | error halt stop =>
    rw [ran] at exact
    cases halt with
    | exhausted => trivial
    | failed error =>
      obtain ⟨other, reported, faults, read, token, later, split, wrong, left, located, first⟩ := exact
      refine .inr ⟨reported, ?_, read, token, later, split, wrong, ?_, located, first⟩
      · rw [← faults]
        simp [Progress.faults, other]
      · exact stop.cursor.synchronize_suffix.trans left

end Exact
end Parser
end Lox
