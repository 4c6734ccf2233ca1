import Lox.Proofs.NodeSpans
import Lox.Proofs.ParserParts

/-! Parsers between the indices of tokens. A parser that starts at one index stops at another, and
unless it reports an error, what it gives is described by the two. All errors that it reports are
about one of the tokens. -/

namespace Lox

theorem Cursor.At.step {tokens : List Token} {index : Nat} {cursor : Cursor}
    (closed : Closed (tokens.map Token.kind)) (stands : cursor.At tokens index)
    (moving : cursor.current.kind ≠ .eof) : cursor.advance.At tokens (index + 1) := by
  obtain ⟨previous, current, ahead⟩ := cursor
  cases ahead with
  | nil => exact absurd rfl ((stands.closed closed).tail moving).ne_nil
  | cons next ahead =>
    rw [Cursor.advance, if_neg (mt Cursor.atEnd_iff.mp moving)]
    exact stands.next

theorem Cursor.At.here {tokens : List Token} {index : Nat} {cursor : Cursor}
    (stands : cursor.At tokens index) : tokens[index]? = some cursor.current := by
  rw [← List.head?_drop, stands.ahead]
  rfl

/-- A message that is written out is a line by its characters, without being decoded. -/
theorem Parser.oneLine {chars : List Char} (none : '\n' ∉ chars) :
    '\n' ∉ (String.ofList chars).toList := by
  rwa [String.toList_ofList]

/-- The error is one of parsing, its message is a line, and it is about one of the tokens. -/
structure ParseError.Cites (tokens : List Token) (error : ParseError) : Prop where
  parsing : error.code.phase = .parsing
  token : ∃ token ∈ tokens, error = .ofToken token error.code error.message
  oneLine : '\n' ∉ error.message.toList

def Halt.Cites (tokens : List Token) : Halt → Prop
  | .failed error => error.Cites tokens
  | .exhausted => True

theorem Cursor.At.cites {tokens : List Token} {index : Nat} {cursor : Cursor} {code : Code}
    {message : String} (stands : cursor.At tokens index) (parsing : code.phase = .parsing)
    (oneLine : '\n' ∉ message.toList) : (cursor.errorHere code message).Cites tokens :=
  ⟨parsing, ⟨cursor.current, List.mem_of_getElem? stands.here, rfl⟩, oneLine⟩

/-- A parser stands at an index of the tokens, and its errors so far are about some of them. -/
structure Progress.Stands (tokens : List Token) (index : Nat) (progress : Progress) : Prop where
  cursor : progress.cursor.At tokens index
  errors : ∀ error ∈ progress.errors, error.Cites tokens

namespace Progress.Stands

variable {tokens : List Token} {index : Nat} {cursor : Cursor} {errors : Array ParseError}

theorem push (stands : Stands tokens index ⟨cursor, errors⟩) {error : ParseError}
    (cites : error.Cites tokens) : Stands tokens index ⟨cursor, errors.push error⟩ := by
  refine ⟨stands.cursor, fun other member => ?_⟩
  rcases Array.mem_push.mp member with known | rfl
  · exact stands.errors other known
  · exact cites

end Progress.Stands

namespace Parser

variable {α β : Type} {tokens : List Token}

/-- A run that started at an index with some errors went forward. Unless it reported an error, its
value is as described up to where it stopped. -/
def Lands (tokens : List Token) (first errors : Nat) (post : α → Nat → Prop) :
    EStateM.Result Halt Progress α → Prop
  | .ok value stop => errors ≤ stop.errors.size ∧ ∃ last, first ≤ last ∧
      stop.Stands tokens last ∧ (stop.errors.size = errors → post value last)
  | .error halt stop => errors ≤ stop.errors.size ∧ ∃ last, first ≤ last ∧
      stop.Stands tokens last ∧ halt.Cites tokens

/-- Wherever the parser starts at the index, it lands so. -/
def Lays (tokens : List Token) (first : Nat) (parser : Parser α) (post : α → Nat → Prop) : Prop :=
  ∀ start, start.Stands tokens first → Lands tokens first start.errors.size post (parser start)

namespace Lands

variable {first later errors : Nat} {result : EStateM.Result Halt Progress α} {post : α → Nat → Prop}

theorem behind (lands : Lands tokens later errors post result) (further : first ≤ later) :
    Lands tokens first errors post result := by
  cases result with
  | ok value stop =>
    obtain ⟨grown, last, onwards, rest⟩ := lands
    exact ⟨grown, last, Nat.le_trans further onwards, rest⟩
  | error halt stop =>
    obtain ⟨grown, last, onwards, rest⟩ := lands
    exact ⟨grown, last, Nat.le_trans further onwards, rest⟩

/-- Of a run behind an error nothing is said but that it goes forward. -/
theorem warned {other : α → Nat → Prop} (lands : Lands tokens first (errors + 1) post result) :
    Lands tokens first errors other result := by
  cases result with
  | ok value stop =>
    obtain ⟨grown, last, further, stands, -⟩ := lands
    exact ⟨by omega, last, further, stands, fun clean => by omega⟩
  | error halt stop =>
    obtain ⟨grown, rest⟩ := lands
    exact ⟨by omega, rest⟩

end Lands

namespace Lays

variable {first : Nat} {parser : Parser α} {next : α → Parser β} {post : α → Nat → Prop}
  {final : β → Nat → Prop}

theorem pure {value : α} (holds : first < tokens.length → post value first) :
    Lays tokens first (Pure.pure value) post := by
  intro start stands
  have left := stands.cursor.left
  have some : 0 < start.cursor.kinds.length := Nat.zero_lt_succ _
  exact ⟨Nat.le_refl _, first, Nat.le_refl _, stands, fun _ => holds (by omega)⟩

theorem exhausted : Lays tokens first (throw .exhausted) post :=
  fun _ stands => ⟨Nat.le_refl _, first, Nat.le_refl _, stands, trivial⟩

theorem fail {code : Code} {message : String} (parsing : code.phase = .parsing)
    (oneLine : '\n' ∉ message.toList) :
    Lays tokens first (failHere code message) post :=
  fun _ stands => ⟨Nat.le_refl _, first, Nat.le_refl _, stands, stands.cursor.cites parsing oneLine⟩

theorem bind (before : Lays tokens first parser post)
    (goesOn : ∀ value middle, first ≤ middle →
      Lays tokens middle (next value) fun result last => post value middle → final result last) :
    Lays tokens first (parser >>= next) final := by
  intro start stands
  have ran := before start stands
  cases done : parser start with
  | error halt stop =>
    rw [done] at ran
    rw [Sequencing.bind_error done]
    exact ran
  | ok value middle =>
    rw [done] at ran
    obtain ⟨grown, index, further, stands', holds⟩ := ran
    have rest := goesOn value index further middle stands'
    rw [Sequencing.bind_ok done]
    cases done' : next value middle with
    | error halt stop =>
      rw [done'] at rest
      obtain ⟨grown', last, further', stands'⟩ := rest
      exact ⟨Nat.le_trans grown grown', last, Nat.le_trans further further', stands'⟩
    | ok result stop =>
      rw [done'] at rest
      obtain ⟨grown', last, further', stands', holds'⟩ := rest
      refine ⟨Nat.le_trans grown grown', last, Nat.le_trans further further', stands', fun clean => ?_⟩
      exact holds' (by omega) (holds (by omega))

theorem mono (lays : Lays tokens first parser post) {weaker : α → Nat → Prop}
    (weakens : ∀ value last, first ≤ last → post value last → weaker value last) :
    Lays tokens first parser weaker := by
  intro start stands
  have ran := lays start stands
  cases done : parser start with
  | error halt stop =>
    rw [done] at ran
    exact ran
  | ok value stop =>
    rw [done] at ran
    obtain ⟨grown, last, further, stands', holds⟩ := ran
    exact ⟨grown, last, further, stands', fun clean => weakens _ _ further (holds clean)⟩

theorem map {f : α → β} (lays : Lays tokens first parser fun value last => final (f value) last) :
    Lays tokens first (f <$> parser) final := by
  rw [map_eq_pure_bind]
  exact lays.bind fun value middle _ => pure fun _ => id

theorem choose {test : Parser Bool} {yes no : Parser α}
    (before : Lays tokens first (test >>= fun holds => if holds then yes else no) post)
    (goesOn : ∀ value middle, first ≤ middle →
      Lays tokens middle (next value) fun result last => post value middle → final result last) :
    Lays tokens first (test >>= fun holds => if holds then yes >>= next else no >>= next) final := by
  rw [if_then_rest]
  exact before.bind goesOn

theorem current {next : Token → Parser β}
    (goesOn : ∀ token, tokens[first]? = some token → Lays tokens first (next token) final) :
    Lays tokens first (current >>= next) final :=
  fun start stands => goesOn start.cursor.current stands.cursor.here start stands

theorem check {kind : TokenKind} {next : Bool → Parser β}
    (goesOn : ∀ found, Lays tokens first (next found) final) :
    Lays tokens first (check kind >>= next) final :=
  fun start stands => goesOn (start.cursor.check kind) start stands

/-- The token before the current one is the last one read. -/
private theorem behind {γ : Type} {test : Parser γ} {next : γ → Parser β} (see : Token → γ)
    (looks : ∀ start, test start = .ok (see start.cursor.previous) start)
    (goesOn : ∀ token, tokens[first - 1]? = some token → Lays tokens first (next (see token)) final) :
    Lays tokens first (test >>= next) final := by
  intro start stands
  rw [Sequencing.bind_ok (looks start)]
  exact goesOn start.cursor.previous stands.cursor.behind start stands

/-- What is not reported as an error is warned of, and then nothing is said. -/
theorem warn {condition : Prop} [Decidable condition] {code : Code} {message : String}
    (parsing : code.phase = .parsing) (oneLine : '\n' ∉ message.toList)
    (lays : Lays tokens first parser post) :
    Lays tokens first (if condition then reportHere code message >>= fun _ => parser else parser)
      post := by
  split
  · intro start stands
    have lands := lays ⟨start.cursor, start.errors.push (start.cursor.errorHere code message)⟩
      (stands.push (stands.cursor.cites parsing oneLine))
    rw [Array.size_push] at lands
    exact lands.warned
  · exact lays

theorem report {error : ParseError} {value : α} (cites : error.Cites tokens) :
    Lays tokens first (report error >>= fun _ => Pure.pure value) post :=
  fun start stands => ⟨by simp, first, Nat.le_refl _, stands.push cites, by simp⟩

theorem recover (lays : Lays tokens first parser post) : Lays tokens first (recover parser)
    fun found last => ∃ value, found = some value ∧ post value last := by
  intro start stands
  have ran := lays start stands
  unfold Parser.recover
  cases done : parser start with
  | ok value stop =>
    rw [done] at ran
    obtain ⟨grown, last, further, stands', holds⟩ := ran
    exact ⟨grown, last, further, stands', fun clean => ⟨value, rfl, holds clean⟩⟩
  | error halt stop =>
    rw [done] at ran
    cases halt with
    | exhausted => exact ran
    | failed error =>
      obtain ⟨grown, last, further, stands', cites⟩ := ran
      obtain ⟨later, further', there⟩ := stands'.cursor.synchronize
      refine ⟨?_, later, Nat.le_trans further further', ⟨there, (stands'.push cites).errors⟩,
        fun clean => ?_⟩
      · simp only [Array.size_push]
        omega
      · simp only [Array.size_push] at clean
        omega

section
variable (order : InOrder tokens)
include order

theorem atEnd {next : Bool → Parser β}
    (goesOn : ∀ ended, (ended = true → tokens.length - 1 = first) →
      Lays tokens first (next ended) final) :
    Lays tokens first (atEnd >>= next) final :=
  fun start stands => goesOn start.cursor.atEnd
    (fun ended => stands.cursor.at_end order.closed (Cursor.atEnd_iff.mp ended)) start stands

/-- A step over a token. -/
private theorem stepped (lays : Lays tokens (first + 1) parser post) {start : Progress}
    (stands : start.Stands tokens first) (moving : start.here ≠ .eof) :
    Lands tokens first start.errors.size post (parser start.advanced) :=
  (lays start.advanced ⟨stands.cursor.step order.closed moving, stands.errors⟩).behind (Nat.le_succ _)

theorem advance {token : Token} {next : Unit → Parser β} (found : tokens[first]? = some token)
    (moving : token.kind ≠ .eof) (goesOn : Lays tokens (first + 1) (next ()) final) :
    Lays tokens first (advance >>= next) final := by
  intro start stands
  have here : start.here = token.kind :=
    congrArg Token.kind (Option.some.inj (stands.cursor.here.symm.trans found))
  exact goesOn.stepped order stands (here ▸ moving)

theorem eat {kind : TokenKind} {yes no : Parser β} (fixed : kind.Fixed)
    (taken : Lays tokens (first + 1) yes final) (other : Lays tokens first no final) :
    Lays tokens first (eat kind >>= fun eaten => if eaten then yes else no) final := by
  intro start stands
  by_cases here : start.here = kind
  · rw [Sequencing.bind_ok (eat_taken fixed here)]
    exact taken.stepped order stands (here ▸ fixed.ne_eof)
  · rw [Sequencing.bind_ok (eat_other fixed here)]
    exact other start stands

theorem expect {kind : TokenKind} {message : String} {next : Token → Parser β} (fixed : kind.Fixed)
    (oneLine : '\n' ∉ message.toList)
    (goesOn : ∀ token, tokens[first]? = some token → Lays tokens (first + 1) (next token) final) :
    Lays tokens first (expect kind message >>= next) final := by
  intro start stands
  by_cases here : start.here = kind
  · rw [Sequencing.bind_ok (expect_taken fixed here)]
    exact (goesOn _ stands.cursor.here).stepped order stands (here ▸ fixed.ne_eof)
  · rw [Sequencing.bind_error (expect_other fixed here)]
    exact ⟨Nat.le_refl _, first, Nat.le_refl _, stands, stands.cursor.cites rfl oneLine⟩

theorem expectName {message : String} {next : String → Parser β}
    (oneLine : '\n' ∉ message.toList)
    (goesOn : ∀ name, Lays tokens (first + 1) (next name) final) :
    Lays tokens first (expectName message >>= next) final := by
  intro start stands
  by_cases named : ∃ name, start.here = .identifier name
  · obtain ⟨name, here⟩ := named
    rw [Sequencing.bind_ok (expectName_taken here)]
    exact (goesOn name).stepped order stands (by simp [here])
  · rw [Sequencing.bind_error (expectName_other (not_exists.mp named))]
    exact ⟨Nat.le_refl _, first, Nat.le_refl _, stands, stands.cursor.cites rfl oneLine⟩

theorem place {begin : Nat} {keyword : Token} (begins : tokens[begin]? = some keyword)
    (forth : begin < first) {next : Place → Parser β}
    (goesOn : ∀ place, Placed tokens begin first place → Lays tokens first (next place) final) :
    Lays tokens first (placeFrom keyword >>= next) final := by
  refine behind (fun previous => ⟨keyword.line, keyword.span.merge previous.span⟩) (fun _ => rfl) ?_
  intro previous ends
  refine goesOn _ ⟨?_, List.mem_map_of_mem (List.mem_of_getElem? begins)⟩
  have last := Stretch.token ends
  rw [Nat.sub_add_cancel (Nat.one_le_of_lt forth)] at last
  exact (Stretch.token begins).merge order last (by omega) (by omega)

/-- What goes on from a stretch to the last token read is a stretch. -/
theorem span {start : Span} {next : Span → Parser β}
    (goesOn : ∀ span, (∀ {begin middle}, Stretch tokens begin middle start → middle ≤ first →
      Stretch tokens begin first span) → Lays tokens first (next span) final) :
    Lays tokens first (spanFrom start >>= next) final := by
  refine behind (fun previous => start.merge previous.span) (fun _ => rfl) fun previous ends => ?_
  refine goesOn _ fun {begin middle} begins upTo => ?_
  have some := begins.forth
  have last := Stretch.token ends
  rw [Nat.sub_add_cancel (by omega)] at last
  exact begins.merge order last (by omega) upTo

end

end Lays

end Parser
end Lox
