import Lox.Proofs.FlatParser
import Lox.Proofs.ParserSteps

/-! The parser over flat memory beside the parser of trees. Every entry of a table is paid for with a
token of its own, so tables stay smaller than sources. -/

namespace Lox.Flat

variable {interner : Interner}

namespace Kind.Reads

variable {kind : Kind} {other : TokenKind} (reads : kind.Reads interner other)
include reads

theorem index_eq : kind.shape.index = other.index := by cases reads <;> rfl

theorem same_eq (expected : TokenKind) : kind.shape.same expected = other.same expected :=
  congrArg (· == expected.index) reads.index_eq

theorem contains_eq (set : KindSet) : set.contains kind.shape = set.contains other :=
  congrArg set.bits.testBit reads.index_eq

theorem joint?_eq (level : Level) : level.joint? kind.shape = level.joint? other := by
  cases reads <;> cases level <;> rfl

theorem unaryOperator?_eq : kind.shape.unaryOperator? = other.unaryOperator? := by
  cases reads <;> rfl

end Kind.Reads

namespace Item.Reads

variable {item : Item} {token : Token}

theorem isEof_eq (reads : item.Reads interner token) : item.isEof = token.isEof := by
  obtain ⟨kind, lexeme, line, span⟩ := item
  obtain ⟨other, text, line', span'⟩ := token
  have kinds : kind.Reads interner other := reads.kind
  cases kinds <;> rfl

theorem isEof_iff (reads : item.Reads interner token) : item.isEof = true ↔ token.kind = .eof := by
  rw [reads.isEof_eq]
  cases same : token.kind <;> simp [Token.isEof, same]

theorem errorAt {input : Input} (reads : item.Reads input.interner token) (code : Code)
    (message : String) : input.errorAt item code message = .ok (.ofToken token code message) := by
  rw [Input.errorAt, reads.isEof_eq, reads.line, reads.span]
  cases last : token.isEof with
  | true =>
    rw [ParseError.ofToken, last]
    rfl
  | false =>
    have other : token.kind ≠ .eof := by
      intro eof
      simp [Token.isEof, eof] at last
    rw [lookup_gave (reads.lexeme other), ParseError.ofToken, last]
    rfl

end Item.Reads

/-- Parsing stands at the same place on both sides, and has reported the same. -/
structure Beside (input : Input) (progress : Progress) (state : State) : Prop where
  tokens : List.Forall₂ (Item.Reads input.interner) (input.items.toList.drop state.index)
    progress.tokens
  previous : ∃ item, input.itemAt (state.index - 1) = .ok item ∧
    item.Reads input.interner progress.cursor.previous
  closed : Closed progress.kinds
  errors : state.errors = progress.errors

def State.advanced (state : State) : State := { state with index := state.index + 1 }

namespace Beside

variable {input : Input} {progress : Progress} {state : State}

theorem split (beside : Beside input progress state) :
    ∃ item, input.items[state.index]? = some item ∧
      item.Reads input.interner progress.cursor.current ∧
        List.Forall₂ (Item.Reads input.interner) (input.items.toList.drop (state.index + 1))
          progress.cursor.ahead := by
  have tokens := beside.tokens
  rw [Progress.tokens] at tokens
  obtain ⟨item, rest, reads, further, left⟩ := List.forall₂_cons_right_iff.mp tokens
  have found : (input.items.toList.drop state.index)[0]? = some item := by rw [left]; rfl
  rw [List.getElem?_drop, Nat.add_zero, Array.getElem?_toList] at found
  rw [← List.tail_drop, left]
  exact ⟨item, found, reads, further⟩

theorem within (beside : Beside input progress state) : state.index < input.items.size := by
  obtain ⟨item, found, -⟩ := beside.split
  exact (Array.getElem?_eq_some_iff.mp found).1

theorem current (beside : Beside input progress state) :
    ∃ item, input.itemAt state.index = .ok item ∧
      item.Reads input.interner progress.cursor.current := by
  obtain ⟨item, found, reads, -⟩ := beside.split
  exact ⟨item, by rw [Input.itemAt, found]; rfl, reads⟩

theorem advance (beside : Beside input progress state) (moving : progress.here ≠ .eof) :
    Beside input progress.advanced state.advanced := by
  obtain ⟨item, found, reads, further⟩ := beside.split
  have inside : ¬ progress.cursor.atEnd = true := mt Cursor.atEnd_iff.mp moving
  have filled : progress.cursor.ahead.map Token.kind ≠ [] := (beside.closed.tail moving).ne_nil
  have moved : progress.advanced.tokens = progress.cursor.ahead ∧
      progress.advanced.cursor.previous = progress.cursor.current := by
    rw [Progress.advanced, Cursor.advance, if_neg inside]
    cases ahead : progress.cursor.ahead with
    | nil => simp [ahead] at filled
    | cons next ahead => exact ⟨rfl, rfl⟩
  refine ⟨moved.1 ▸ further, ⟨item, ?_, moved.2 ▸ reads⟩,
    (Progress.kinds_advanced beside.closed moving).2, beside.errors⟩
  rw [State.advanced, Nat.add_sub_cancel, Input.itemAt, found]
  rfl

end Beside

/-- Between the two states tables have grown, by less than what was read. What has not been spent can
still pay for so many expressions, statements and entries of statement lists. -/
structure Grown (exprs stmts lists : Nat) (first second : State) : Prop where
  exprs : second.arena.weight + exprs + first.index ≤ first.arena.weight + second.index
  stmts : second.arena.stmts.size + stmts + first.index ≤ first.arena.stmts.size + second.index
  lists : second.arena.stmtLists.size + lists + first.index ≤
    first.arena.stmtLists.size + second.index
  arena : first.arena.Extends second.arena

namespace Grown

variable {exprs stmts lists exprs' stmts' lists' : Nat} {first second third : State}

theorem refl (state : State) : Grown 0 0 0 state state :=
  ⟨Nat.le_refl _, Nat.le_refl _, Nat.le_refl _, .refl _⟩

theorem trans (grown : Grown exprs stmts lists first second)
    (further : Grown exprs' stmts' lists' second third) :
    Grown (exprs + exprs') (stmts + stmts') (lists + lists') first third := by
  have one := grown.exprs
  have two := grown.stmts
  have three := grown.lists
  have four := further.exprs
  have five := further.stmts
  have six := further.lists
  exact ⟨by omega, by omega, by omega, grown.arena.trans further.arena⟩

/-- What could be paid for may be left out. -/
theorem le (grown : Grown exprs stmts lists first second) (fewer : exprs' ≤ exprs)
    (fewer' : stmts' ≤ stmts) (fewer'' : lists' ≤ lists) :
    Grown exprs' stmts' lists' first second := by
  have one := grown.exprs
  have two := grown.stmts
  have three := grown.lists
  exact ⟨by omega, by omega, by omega, grown.arena⟩

theorem advanced (state : State) : Grown 1 1 1 state state.advanced := by
  refine ⟨?_, ?_, ?_, .refl _⟩ <;> simp only [State.advanced] <;> omega

end Grown

/-- All entries of tables have been paid for. -/
def Paid (state : State) : Prop := Grown 0 0 0 ⟨0, .empty, #[]⟩ state

/-- Where a parser has got to since its start, and what it can still pay for. -/
structure Here (input : Input) (start : State) (exprs stmts lists : Nat) (progress : Progress)
    (state : State) : Prop where
  beside : Beside input progress state
  grown : Grown exprs stmts lists start state
  paid : Paid start
  small : input.items.size ≤ Span.maxOffset + 1

/-- Both parsers end alike, be it with results that belong together or with the same error. -/
def Agrees {α β : Type} (input : Input) (start : State) (post : α → β → State → Prop)
    (tree : Lox.Parser α) (flat : Parser β) (progress : Progress) (state : State) : Prop :=
  match tree progress, flat state with
  | .ok value progress, .ok result state => Beside input progress state ∧ post value result state
  | .error (.failed error) progress, .error (.failed other) state =>
    error = other ∧ Beside input progress state ∧ Grown 0 0 0 start state
  | .error .exhausted _, .error .exhausted _ => True
  | _, _ => False

variable {input : Input} {start state : State} {exprs stmts lists : Nat} {progress : Progress}

namespace Agrees

variable {α β γ δ : Type} {post mid : α → β → State → Prop} {tree : Lox.Parser α} {flat : Parser β}

theorem pure {value : α} {result : β} (beside : Beside input progress state)
    (holds : post value result state) :
    Agrees input start post (Pure.pure value) (Pure.pure result) progress state :=
  ⟨beside, holds⟩

theorem exhausted :
    Agrees input start post (throw .exhausted) (throw .exhausted) progress state :=
  trivial

theorem bind {last : γ → δ → State → Prop} {next : α → Lox.Parser γ} {next' : β → Parser δ}
    (agrees : Agrees input start mid tree flat progress state)
    (goesOn : ∀ value result after after', Beside input after after' → mid value result after' →
      Agrees input start last (next value) (next' result) after after') :
    Agrees input start last (tree >>= next) (flat >>= next') progress state := by
  unfold Agrees at agrees
  cases ran : tree progress with
  | ok value after =>
    cases ran' : flat state with
    | ok result after' =>
      rw [ran, ran'] at agrees
      unfold Agrees
      rw [Sequencing.bind_ok ran, Sequencing.bind_ok ran']
      exact goesOn value result after after' agrees.1 agrees.2
    | error halt after' =>
      rw [ran, ran'] at agrees
      exact agrees.elim
  | error halt after =>
    cases ran' : flat state with
    | ok result after' =>
      rw [ran, ran'] at agrees
      cases halt <;> exact agrees.elim
    | error halt' after' =>
      rw [ran, ran'] at agrees
      unfold Agrees
      rw [Sequencing.bind_error ran, Sequencing.bind_error ran']
      cases halt <;> cases halt' <;> exact agrees

theorem mono (agrees : Agrees input start mid tree flat progress state)
    (implies : ∀ value result after, mid value result after → post value result after) :
    Agrees input start post tree flat progress state := by
  unfold Agrees at agrees ⊢
  split at agrees
  next ran ran' => exact ⟨agrees.1, implies _ _ _ agrees.2⟩
  next => exact agrees
  next => exact agrees
  next => exact agrees.elim

theorem map {f : α → γ} {g : β → δ} {last : γ → δ → State → Prop}
    (agrees : Agrees input start mid tree flat progress state)
    (implies : ∀ value result after, mid value result after → last (f value) (g result) after) :
    Agrees input start last (f <$> tree) (g <$> flat) progress state := by
  rw [map_eq_pure_bind, map_eq_pure_bind]
  exact agrees.bind fun value result _ after beside holds =>
    .pure beside (implies value result after holds)

/-- A parser that starts in the middle of another. -/
theorem within {middle : State} (agrees : Agrees input middle post tree flat progress state)
    (grown : Grown exprs stmts lists start middle) :
    Agrees input start post tree flat progress state := by
  unfold Agrees at agrees ⊢
  split at agrees
  next => exact agrees
  next =>
    obtain ⟨same, beside, further⟩ := agrees
    exact ⟨same, beside, (grown.trans further).le (Nat.zero_le _) (Nat.zero_le _) (Nat.zero_le _)⟩
  next => exact agrees
  next => exact agrees.elim

/-- A step that only the second parser takes. -/
theorem step {next : γ → Parser β} {first : Parser γ} {value : γ} {after : State}
    (ran : first state = .ok value after)
    (agrees : Agrees input start post tree (next value) progress after) :
    Agrees input start post tree (first >>= next) progress state := by
  unfold Agrees at agrees ⊢
  rw [Sequencing.bind_ok ran]
  exact agrees

/-- A step that both parsers take. -/
theorem steps {δ : Type} {tree : Lox.Parser γ} {flat : Parser δ} {next : γ → Lox.Parser α}
    {next' : δ → Parser β} {value : γ} {result : δ} {progress' : Progress} {state' : State}
    (ran : tree progress = .ok value progress') (ran' : flat state = .ok result state')
    (agrees : Agrees input start post (next value) (next' result) progress' state') :
    Agrees input start post (tree >>= next) (flat >>= next') progress state := by
  unfold Agrees at agrees ⊢
  rw [Sequencing.bind_ok ran, Sequencing.bind_ok ran']
  exact agrees

/-- A last step of the second parser may be taken as one that nothing follows. -/
theorem last (agrees : Agrees input start post tree (flat >>= Pure.pure) progress state) :
    Agrees input start post tree flat progress state := by
  rwa [bind_pure] at agrees

end Agrees

namespace Here

variable {exprs' stmts' lists' : Nat}

theorem after (here : Here input start exprs stmts lists progress state) {progress' : Progress}
    {state' : State} (beside : Beside input progress' state')
    (grown : Grown exprs' stmts' lists' state state') :
    Here input start (exprs + exprs') (stmts + stmts') (lists + lists') progress' state' :=
  ⟨beside, here.grown.trans grown, here.paid, here.small⟩

theorem le (here : Here input start exprs stmts lists progress state) (fewer : exprs' ≤ exprs)
    (fewer' : stmts' ≤ stmts) (fewer'' : lists' ≤ lists) :
    Here input start exprs' stmts' lists' progress state :=
  ⟨here.beside, here.grown.le fewer fewer' fewer'', here.paid, here.small⟩

/-- A place to start from anew. -/
theorem anew (here : Here input start exprs stmts lists progress state) :
    Here input state 0 0 0 progress state := by
  have paid : Paid state :=
    (here.paid.trans here.grown).le (Nat.zero_le _) (Nat.zero_le _) (Nat.zero_le _)
  exact ⟨here.beside, .refl state, paid, here.small⟩

/-- What can be paid for fits into its table. -/
theorem room (here : Here input start exprs stmts lists progress state) :
    state.arena.weight + exprs ≤ Span.maxOffset ∧
      state.arena.stmts.size + stmts ≤ Span.maxOffset ∧
        state.arena.stmtLists.size + lists ≤ Span.maxOffset := by
  have whole := here.paid.trans here.grown
  have one := whole.exprs
  have two := whole.stmts
  have three := whole.lists
  have within := here.beside.within
  have small := here.small
  simp only [Arena.weight, Arena.empty, List.size_toArray, List.length_nil, Nat.zero_add] at *
  exact ⟨by omega, by omega, by omega⟩

theorem build {α : Type} {value : α} {arena : Arena}
    (here : Here input start (exprs + exprs') (stmts + stmts') (lists + lists') progress state)
    (change : Arena → Checked (α × Arena)) (ran : change state.arena = .ok (value, arena))
    (spends : Arena.Spends exprs' stmts' lists' state.arena arena) :
    Parser.build change state = .ok value { state with arena } ∧
      Here input start exprs stmts lists progress { state with arena } := by
  constructor
  · rw [Parser.build, ran]
  have one := here.grown.exprs
  have two := here.grown.stmts
  have three := here.grown.lists
  have one' := spends.exprs
  have two' := spends.stmts
  have three' := spends.lists
  refine ⟨⟨here.beside.tokens, here.beside.previous, here.beside.closed, here.beside.errors⟩, ?_,
    here.paid, here.small⟩
  exact ⟨by simp only; omega, by simp only; omega, by simp only; omega,
    here.grown.arena.trans spends.grown⟩

theorem storeExpr (here : Here input start (exprs + 1) stmts lists progress state)
    (node : ExprNode) : ∃ index after, Parser.storeExpr node state = .ok index after ∧
      Here input start exprs stmts lists progress after ∧ state.arena.Extends after.arena ∧
        readNode after.arena.exprs index = .ok node := by
  have room := here.room.1
  simp only [Arena.weight] at room
  obtain ⟨index, arena, ran, spends, found⟩ := state.arena.storeExpr_ok node (by omega)
  obtain ⟨built, here⟩ := here.build (·.storeExpr node) ran spends
  exact ⟨_, _, built, here, spends.grown, found⟩

theorem storeStmt (here : Here input start exprs (stmts + 1) lists progress state)
    (node : StmtNode) : ∃ index after, Parser.storeStmt node state = .ok index after ∧
      Here input start exprs stmts lists progress after ∧ state.arena.Extends after.arena ∧
        readNode after.arena.stmts index = .ok node := by
  have room := here.room.2.1
  obtain ⟨index, arena, ran, spends, found⟩ := state.arena.storeStmt_ok node (by omega)
  obtain ⟨built, here⟩ := here.build (·.storeStmt node) ran spends
  exact ⟨_, _, built, here, spends.grown, found⟩

theorem storeExprs {entries : List Nat}
    (here : Here input start (exprs + entries.length) stmts lists progress state) :
    ∃ range after, Parser.storeExprs entries state = .ok range after ∧
      Here input start exprs stmts lists progress after ∧ state.arena.Extends after.arena ∧
        readList after.arena.exprLists range = .ok entries := by
  have room := here.room.1
  simp only [Arena.weight] at room
  obtain ⟨range, arena, ran, spends, found⟩ := state.arena.storeExprs_ok entries (by omega)
  obtain ⟨built, here⟩ := here.build (·.storeExprs entries) ran spends
  exact ⟨_, _, built, here, spends.grown, found⟩

theorem storeStmts {entries : List Nat}
    (here : Here input start exprs stmts (lists + entries.length) progress state) :
    ∃ range after, Parser.storeStmts entries state = .ok range after ∧
      Here input start exprs stmts lists progress after ∧ state.arena.Extends after.arena ∧
        readList after.arena.stmtLists range = .ok entries := by
  have room := here.room.2.2
  obtain ⟨range, arena, ran, spends, found⟩ := state.arena.storeStmts_ok entries (by omega)
  obtain ⟨built, here⟩ := here.build (·.storeStmts entries) ran spends
  exact ⟨_, _, built, here, spends.grown, found⟩

theorem storeParams {entries : List Name}
    (here : Here input start (exprs + entries.length) stmts lists progress state) :
    ∃ range after, Parser.storeParams entries state = .ok range after ∧
      Here input start exprs stmts lists progress after ∧ state.arena.Extends after.arena ∧
        readList after.arena.params range = .ok entries := by
  have room := here.room.1
  simp only [Arena.weight] at room
  obtain ⟨range, arena, ran, spends, found⟩ := state.arena.storeParams_ok entries (by omega)
  obtain ⟨built, here⟩ := here.build (·.storeParams entries) ran spends
  exact ⟨_, _, built, here, spends.grown, found⟩

theorem advanced (here : Here input start exprs stmts lists progress state)
    (moving : progress.here ≠ .eof) :
    Here input start (exprs + 1) (stmts + 1) (lists + 1) progress.advanced state.advanced :=
  here.after (here.beside.advance moving) (.advanced state)

theorem readsCurrent (here : Here input start exprs stmts lists progress state) :
    ∃ item, Parser.current input state = .ok item state ∧
      item.Reads input.interner progress.cursor.current := by
  obtain ⟨item, found, reads⟩ := here.beside.current
  refine ⟨item, ?_, reads⟩
  rw [Parser.current, found]
  rfl

theorem readsCheck (here : Here input start exprs stmts lists progress state) (kind : TokenKind) :
    Parser.check input kind state = .ok (progress.cursor.check kind) state := by
  obtain ⟨item, ran, reads⟩ := here.readsCurrent
  rw [Parser.check, Sequencing.bind_ok ran, reads.kind.same_eq]
  rfl

theorem readsAtEnd (here : Here input start exprs stmts lists progress state) :
    Parser.atEnd input state = .ok progress.cursor.atEnd state := by
  obtain ⟨item, ran, reads⟩ := here.readsCurrent
  rw [Parser.atEnd, Sequencing.bind_ok ran, reads.isEof_eq]
  rfl

theorem readsAdvance (here : Here input start exprs stmts lists progress state)
    (moving : progress.here ≠ .eof) : ∃ item, Parser.advance input state = .ok item state.advanced ∧
      item.Reads input.interner progress.cursor.current := by
  obtain ⟨item, ran, reads⟩ := here.readsCurrent
  have inside : ¬ item.isEof = true := mt reads.isEof_iff.mp moving
  refine ⟨item, ?_, reads⟩
  rw [Parser.advance, Sequencing.bind_ok ran, if_neg inside]
  rfl

variable {α β : Type} {post : α → β → State → Prop} {message : String} {kind : TokenKind}

/-- Another parser goes first. What it leaves adds to what was left before. -/
theorem bind {γ δ : Type} {stands : γ → δ → State → Prop} {exprs' stmts' lists' : δ → Nat}
    {tree : Lox.Parser γ} {flat : Parser δ} {next : γ → Lox.Parser α} {next' : δ → Parser β}
    (here : Here input start exprs stmts lists progress state)
    (agrees : Agrees input state (fun value result after => stands value result after ∧
      Grown (exprs' result) (stmts' result) (lists' result) state after) tree flat progress state)
    (goesOn : ∀ value result progress after, Here input start (exprs + exprs' result)
      (stmts + stmts' result) (lists + lists' result) progress after →
        state.arena.Extends after.arena → stands value result after →
          Agrees input start post (next value) (next' result) progress after) :
    Agrees input start post (tree >>= next) (flat >>= next') progress state := by
  refine (agrees.within here.grown).bind fun value result progress after beside holds => ?_
  obtain ⟨stands, grown⟩ := holds
  exact goesOn value result progress after (here.after beside grown) grown.arena stands

theorem current {next : Token → Lox.Parser α} {next' : Item → Parser β}
    (here : Here input start exprs stmts lists progress state)
    (goesOn : ∀ item, item.Reads input.interner progress.cursor.current →
      Agrees input start post (next progress.cursor.current) (next' item) progress state) :
    Agrees input start post (Lox.Parser.current >>= next) (Parser.current input >>= next')
      progress state := by
  obtain ⟨item, ran, reads⟩ := here.readsCurrent
  exact .steps rfl ran (goesOn item reads)

theorem check {next : Bool → Lox.Parser α} {next' : Bool → Parser β}
    (here : Here input start exprs stmts lists progress state)
    (goesOn : Agrees input start post (next (progress.cursor.check kind))
      (next' (progress.cursor.check kind)) progress state) :
    Agrees input start post (Lox.Parser.check kind >>= next) (Parser.check input kind >>= next')
      progress state :=
  .steps rfl (here.readsCheck kind) goesOn

theorem atEnd {next : Bool → Lox.Parser α} {next' : Bool → Parser β}
    (here : Here input start exprs stmts lists progress state)
    (goesOn : Agrees input start post (next progress.cursor.atEnd) (next' progress.cursor.atEnd)
      progress state) :
    Agrees input start post (Lox.Parser.atEnd >>= next) (Parser.atEnd input >>= next')
      progress state :=
  .steps rfl here.readsAtEnd goesOn

theorem advance {next : Unit → Lox.Parser α} {next' : Item → Parser β}
    (here : Here input start exprs stmts lists progress state) (moving : progress.here ≠ .eof)
    (goesOn : ∀ item, Here input start (exprs + 1) (stmts + 1) (lists + 1) progress.advanced
      state.advanced → Agrees input start post (next ()) (next' item) progress.advanced
        state.advanced) :
    Agrees input start post (Lox.Parser.advance >>= next) (Parser.advance input >>= next')
      progress state := by
  obtain ⟨item, ran, -⟩ := here.readsAdvance moving
  exact .steps rfl ran (goesOn item (here.advanced moving))

theorem eat {next : Bool → Lox.Parser α} {next' : Bool → Parser β}
    (here : Here input start exprs stmts lists progress state) (fixed : kind.Fixed)
    (taken : Here input start (exprs + 1) (stmts + 1) (lists + 1) progress.advanced state.advanced →
      Agrees input start post (next true) (next' true) progress.advanced state.advanced)
    (other : Agrees input start post (next false) (next' false) progress state) :
    Agrees input start post (Lox.Parser.eat kind >>= next) (Parser.eat input kind >>= next')
      progress state := by
  have checked := here.readsCheck kind
  by_cases stands : progress.here = kind
  · have moving : progress.here ≠ .eof := stands ▸ fixed.ne_eof
    obtain ⟨item, ran, -⟩ := here.readsAdvance moving
    have found : progress.cursor.check kind = true := fixed.same_iff.mpr stands
    rw [found] at checked
    refine .steps (Lox.Parser.eat_taken fixed stands) ?_ (taken (here.advanced moving))
    rw [Parser.eat, Sequencing.bind_ok checked, if_pos rfl, Sequencing.bind_ok ran]
    rfl
  · have apart : progress.cursor.check kind = false :=
      Bool.eq_false_iff.mpr (mt fixed.same_iff.mp stands)
    rw [apart] at checked
    refine .steps (Lox.Parser.eat_other fixed stands) ?_ other
    rw [Parser.eat, Sequencing.bind_ok checked, if_neg (by simp)]
    rfl

theorem fails {tree : Lox.Parser α} {flat : Parser β} {error : ParseError}
    (here : Here input start exprs stmts lists progress state)
    (ran : tree progress = .error (.failed error) progress)
    (ran' : flat state = .error (.failed error) state) :
    Agrees input start post tree flat progress state := by
  unfold Agrees
  rw [ran, ran']
  exact ⟨rfl, here.beside, here.grown.le (Nat.zero_le _) (Nat.zero_le _) (Nat.zero_le _)⟩

theorem failsHere (here : Here input start exprs stmts lists progress state) (code : Code)
    (message : String) : (Parser.failHere input code message : Parser β) state =
      .error (.failed (progress.cursor.errorHere code message)) state := by
  obtain ⟨item, ran, reads⟩ := here.readsCurrent
  rw [Parser.failHere, Sequencing.bind_ok ran, reads.errorAt]
  rfl

theorem expect {next : Token → Lox.Parser α} {next' : Item → Parser β}
    (here : Here input start exprs stmts lists progress state) (fixed : kind.Fixed)
    (goesOn : ∀ item, item.Reads input.interner progress.cursor.current →
      Here input start (exprs + 1) (stmts + 1) (lists + 1) progress.advanced state.advanced →
        Agrees input start post (next progress.cursor.current) (next' item) progress.advanced
          state.advanced) :
    Agrees input start post (Lox.Parser.expect kind message >>= next)
      (Parser.expect input kind message >>= next') progress state := by
  have checked := here.readsCheck kind
  by_cases stands : progress.here = kind
  · have moving : progress.here ≠ .eof := stands ▸ fixed.ne_eof
    obtain ⟨item, ran, reads⟩ := here.readsAdvance moving
    have found : progress.cursor.check kind = true := fixed.same_iff.mpr stands
    rw [found] at checked
    refine .steps (Lox.Parser.expect_taken fixed stands) ?_ (goesOn item reads (here.advanced moving))
    rw [Parser.expect, Sequencing.bind_ok checked, if_pos rfl, ran]
  · have apart : progress.cursor.check kind = false :=
      Bool.eq_false_iff.mpr (mt fixed.same_iff.mp stands)
    rw [apart] at checked
    have failed : Parser.expect input kind message state =
        .error (.failed (progress.cursor.errorHere .expectedToken message)) state := by
      rw [Parser.expect, Sequencing.bind_ok checked, if_neg (by simp), here.failsHere]
    exact here.fails (Sequencing.bind_error (Lox.Parser.expect_other fixed stands))
      (Sequencing.bind_error failed)

theorem expectName {next : String → Lox.Parser α} {next' : Name → Parser β}
    (here : Here input start exprs stmts lists progress state)
    (goesOn : ∀ name text, input.interner.Gave name text →
      Here input start (exprs + 1) (stmts + 1) (lists + 1) progress.advanced state.advanced →
        Agrees input start post (next text) (next' name) progress.advanced state.advanced) :
    Agrees input start post (Lox.Parser.expectName message >>= next)
      (Parser.expectName input message >>= next') progress state := by
  obtain ⟨item, ran, reads⟩ := here.readsCurrent
  have kinds : item.kind.Reads input.interner progress.here := reads.kind
  by_cases named : ∃ text, progress.here = .identifier text
  · obtain ⟨text, stands⟩ := named
    have moving : progress.here ≠ .eof := by simp [stands]
    obtain ⟨item', advanced, -⟩ := here.readsAdvance moving
    rw [stands] at kinds
    generalize written : item.kind = kind at kinds
    cases kinds with
    | @identifier name _ gave =>
      refine .steps (Lox.Parser.expectName_taken stands) ?_
        (goesOn name text gave (here.advanced moving))
      rw [Parser.expectName, Sequencing.bind_ok ran]
      simp only [written]
      rw [Sequencing.bind_ok advanced]
      rfl
  · have unnamed : ∀ text, progress.here ≠ .identifier text := not_exists.mp named
    have failed : Parser.expectName input message state =
        .error (.failed (progress.cursor.errorHere .expectedIdentifier message)) state := by
      rw [Parser.expectName, Sequencing.bind_ok ran]
      cases written : item.kind with
      | identifier name =>
        rw [written] at kinds
        generalize stands : progress.here = kind at kinds
        cases kinds with
        | @identifier _ text gave => exact absurd stands (unnamed text)
      | symbol | string | number | keyword | eof => exact here.failsHere _ _
    exact here.fails (Sequencing.bind_error (Lox.Parser.expectName_other unnamed))
      (Sequencing.bind_error failed)

/-- A reported error moves nothing. -/
theorem reported (here : Here input start exprs stmts lists progress state) (error : ParseError) :
    Here input start exprs stmts lists ⟨progress.cursor, progress.errors.push error⟩
      { state with errors := state.errors.push error } := by
  obtain ⟨⟨tokens, previous, closed, errors⟩, ⟨one, two, three, further⟩, paid, small⟩ := here
  exact ⟨⟨tokens, previous, closed, congrArg (·.push error) errors⟩, ⟨one, two, three, further⟩,
    paid, small⟩

theorem report {next : Unit → Lox.Parser α} {next' : Unit → Parser β} {error : ParseError}
    (here : Here input start exprs stmts lists progress state)
    (goesOn : Here input start exprs stmts lists ⟨progress.cursor, progress.errors.push error⟩
        { state with errors := state.errors.push error } →
      Agrees input start post (next ()) (next' ()) ⟨progress.cursor, progress.errors.push error⟩
        { state with errors := state.errors.push error }) :
    Agrees input start post (Lox.Parser.report error >>= next) (Parser.report error >>= next')
      progress state :=
  .steps rfl rfl (goesOn (here.reported error))

theorem reportHere {next : Unit → Lox.Parser α} {next' : Unit → Parser β} {code : Code}
    (here : Here input start exprs stmts lists progress state)
    (goesOn : ∀ progress state', state'.arena = state.arena →
      Here input start exprs stmts lists progress state' →
        Agrees input start post (next ()) (next' ()) progress state') :
    Agrees input start post (Lox.Parser.reportHere code message >>= next)
      (Parser.reportHere input code message >>= next') progress state := by
  obtain ⟨item, ran, reads⟩ := here.readsCurrent
  have reported := here.reported (progress.cursor.errorHere code message)
  have ran' : Parser.reportHere input code message state = .ok () { state with
      errors := state.errors.push (progress.cursor.errorHere code message) } := by
    rw [Parser.reportHere, Sequencing.bind_ok ran, reads.errorAt]
    rfl
  exact .steps rfl ran' (goesOn _ _ rfl reported)

theorem readsSpan (here : Here input start exprs stmts lists progress state) (span : Span) :
    Parser.spanFrom input span state =
      .ok (span.merge progress.cursor.previous.span) state := by
  obtain ⟨item, found, reads⟩ := here.beside.previous
  have ran : Parser.previous input state = .ok item state := by
    rw [Parser.previous, found]
    rfl
  rw [Parser.spanFrom, Sequencing.bind_ok ran, reads.span]
  rfl

theorem finish {keyword : Item} {token : Token}
    (here : Here input start exprs (stmts + 1) lists progress state)
    (reads : keyword.Reads input.interner token) (kind : StmtKind) :
    ∃ index after, Parser.finish input keyword kind state = .ok index after ∧
      Here input start exprs stmts lists progress after ∧ state.arena.Extends after.arena ∧
        readNode after.arena.stmts index =
          .ok ⟨kind, ⟨token.line, token.span.merge progress.cursor.previous.span⟩⟩ := by
  rw [Parser.finish, Sequencing.bind_ok (here.readsSpan keyword.span), reads.line, reads.span]
  exact here.storeStmt _

end Here

theorem readExpr_ok {index : Nat} {node : ExprNode}
    (found : readNode state.arena.exprs index = .ok node) :
    Parser.readExpr index state = .ok node state := by
  rw [Parser.readExpr, found]
  rfl

theorem readsExpr {index : Nat} {tree : Expr Place}
    (stands : ExprAt input.interner state.arena index tree) :
    ∃ kind, Parser.readExpr index state = .ok ⟨kind, tree.place⟩ state := by
  obtain ⟨kind, found⟩ := stands.node
  exact ⟨kind, readExpr_ok found⟩

theorem readsStmt {index : Nat} {tree : Stmt Place}
    (stands : StmtAt input.interner state.arena index tree) :
    ∃ kind, Parser.readStmt index state = .ok ⟨kind, tree.place⟩ state := by
  obtain ⟨kind, found⟩ := stands.node
  refine ⟨kind, ?_⟩
  rw [Parser.readStmt, found]
  rfl

theorem reach_ok {α : Type} {result : Checked α} {value : α} (ok : result = .ok value) :
    Parser.reach result state = .ok value state := by
  rw [ok]
  rfl

end Lox.Flat
