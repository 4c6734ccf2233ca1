import Lox.Proofs.FlatExpressions

/-! Statements and declarations are parsed over flat memory as they are into trees, also behind errors
that parsing has been taken up again from. -/

namespace Lox.Flat

variable {input : Input} {start state : State} {progress : Progress} {fuel : Nat}
  {exprs stmts lists : Nat} {keyword : Item} {token : Token}

/-- The statement has been stored, and so much is left. -/
def StoresStmt (input : Input) (start : State) (exprs stmts lists : Nat) (tree : Stmt Place)
    (index : Nat) (state : State) : Prop :=
  StmtAt input.interner state.arena index tree ∧ Grown exprs stmts lists start state

/-- The last step of a statement, which stores it with its place. -/
theorem Here.finishes {kind : StmtKind} {make : Place → Stmt Place}
    (here : Here input start exprs (stmts + 1) lists progress state)
    (reads : keyword.Reads input.interner token)
    (holds : ∀ {arena index}, state.arena.Extends arena → readNode arena.stmts index =
        .ok ⟨kind, ⟨token.line, token.span.merge progress.cursor.previous.span⟩⟩ →
      StmtAt input.interner arena index
        (make ⟨token.line, token.span.merge progress.cursor.previous.span⟩)) :
    Agrees input start (StoresStmt input start exprs stmts lists)
      (do return make (← Lox.Parser.placeFrom token)) (Parser.finish input keyword kind) progress
        state := by
  obtain ⟨index, after, ran, here, further, found⟩ := here.finish reads kind
  exact .last (.steps rfl ran (.pure here.beside ⟨holds further found, here.grown⟩))

/-- The semicolon before it pays for the statement and for its place in a list. -/
theorem Here.finishesBehind {kind : StmtKind} {make : Place → Stmt Place} {message : String}
    (here : Here input start exprs stmts lists progress state)
    (reads : keyword.Reads input.interner token)
    (holds : ∀ {arena index place}, state.arena.Extends arena →
      readNode arena.stmts index = .ok ⟨kind, place⟩ →
        StmtAt input.interner arena index (make place)) :
    Agrees input start (StoresStmt input start 0 0 1)
      (do
        let _ ← Lox.Parser.expect (.symbol .semicolon) message
        return make (← Lox.Parser.placeFrom token))
      (do
        let _ ← Parser.expect input (.symbol .semicolon) message
        Parser.finish input keyword kind) progress state := by
  refine here.expect .symbol fun _ _ here => ?_
  exact (here.le (Nat.zero_le _) (by omega) (by omega)).finishes reads holds

theorem declareRest_agrees (here : Here input start 1 1 1 progress state)
    (reads : keyword.Reads input.interner token) :
    Agrees input start (StoresStmt input start 0 0 1) (Lox.Parser.declareRest fuel token)
      (Parser.declareRest input fuel keyword) progress state := by
  refine here.expectName fun name text gave here => here.eat .symbol (fun here => ?_) ?_
  · refine here.someExpression fun here _ stands => ?_
    refine here.finishesBehind reads fun further found => ?_
    exact .declare found gave (.some (stands.mono (.refl _) further))
  · exact here.finishesBehind reads fun _ found => .declare found gave .none

theorem printRest_agrees (here : Here input start 1 1 1 progress state)
    (reads : keyword.Reads input.interner token) :
    Agrees input start (StoresStmt input start 0 0 1) (Lox.Parser.printRest fuel token)
      (Parser.printRest input fuel keyword) progress state := by
  refine here.expression fun here _ stands => here.finishesBehind reads fun further found => ?_
  exact .print found (stands.mono (.refl _) further)

theorem returnRest_agrees (here : Here input start 1 1 1 progress state)
    (reads : keyword.Reads input.interner token) :
    Agrees input start (StoresStmt input start 0 0 1) (Lox.Parser.returnRest fuel token)
      (Parser.returnRest input fuel keyword) progress state := by
  refine here.check ?_
  cases progress.cursor.check (.symbol .semicolon) with
  | true => exact here.finishesBehind reads fun _ found => .returnValue found .none
  | false =>
    refine here.someExpression fun here _ stands => ?_
    refine here.finishesBehind reads fun further found => ?_
    exact .returnValue found (.some (stands.mono (.refl _) further))

theorem breakRest_agrees (here : Here input start 1 1 1 progress state)
    (reads : keyword.Reads input.interner token) :
    Agrees input start (StoresStmt input start 0 0 1) (Lox.Parser.breakRest token)
      (Parser.breakRest input keyword) progress state :=
  here.finishesBehind reads fun _ found => .breakLoop found

theorem continueRest_agrees (here : Here input start 1 1 1 progress state)
    (reads : keyword.Reads input.interner token) :
    Agrees input start (StoresStmt input start 0 0 1) (Lox.Parser.continueRest token)
      (Parser.continueRest input keyword) progress state :=
  here.finishesBehind reads fun _ found => .continueLoop found

theorem expressionStatement_agrees (here : Here input state 0 0 0 progress state) :
    Agrees input state (StoresStmt input state 0 0 1) (Lox.Parser.expressionStatement fuel)
      (Parser.expressionStatement input fuel) progress state := by
  refine here.expression fun here _ stands => ?_
  obtain ⟨kind, readExpr⟩ := readsExpr stands
  refine .step readExpr (here.expect .symbol fun _ _ here => ?_)
  refine .steps rfl (here.readsSpan _) ?_
  have here : Here input _ 0 1 1 _ _ := here.le (by omega) (by omega) (by omega)
  obtain ⟨index, after, ran, here, further, found⟩ := here.storeStmt _
  refine .last (.step ran (.pure here.beside ⟨?_, here.grown⟩))
  exact .expression found (stands.mono (.refl _) further)

/-- The parameters have been read, behind those before, each of them paid for. -/
def ReadsParameters (input : Input) (start : State) (before : Nat) (texts : List String)
    (names : List Name) (state : State) : Prop :=
  List.Forall₂ input.interner.Gave names texts ∧ Grown (names.length - before) 0 0 start state

theorem parameters_agree {texts : Array String} {names : Array Name}
    (here : Here input state 0 0 0 progress state)
    (before : List.Forall₂ input.interner.Gave names.toList texts.toList) :
    Agrees input state (ReadsParameters input state names.size) (Lox.Parser.parameters fuel texts)
      (Parser.parameters input fuel names) progress state := by
  induction fuel generalizing texts names progress state with
  | zero => exact .exhausted
  | succ fuel ih =>
    have sizes : names.size = texts.size := before.length_eq
    have rest : ∀ {progress after}, Here input state 0 0 0 progress after →
        Agrees input state (ReadsParameters input state names.size)
          (do
            let text ← Lox.Parser.expectName "expected parameter name"
            if ← Lox.Parser.eat (.symbol .comma) then Lox.Parser.parameters fuel (texts.push text)
            else return (texts.push text).toList)
          (do
            let name ← Parser.expectName input "expected parameter name"
            if ← Parser.eat input (.symbol .comma) then
              Parser.parameters input fuel (names.push name)
            else return (names.push name).toList) progress after := by
      intro progress after here
      refine here.expectName fun name text gave here => ?_
      have entries : List.Forall₂ input.interner.Gave (names.push name).toList
          (texts.push text).toList := by
        rw [Array.toList_push, Array.toList_push]
        exact List.rel_append before (.cons gave .nil)
      refine here.eat .symbol (fun here => ?_) ?_
      · refine ((ih here.anew entries).within here.grown).mono fun texts names after further => ?_
        refine ⟨further.1, (here.grown.trans further.2).le ?_ (by omega) (by omega)⟩
        rw [Array.size_push]
        omega
      · refine .pure here.beside ⟨entries, here.grown.le ?_ (by omega) (by omega)⟩
        simp
    rw [Lox.Parser.parameters, Parser.parameters, ← sizes]
    split
    · exact here.reportHere fun progress after _ here => rest here
    · exact rest here

def StoresFirst (input : Input) (start : State) (tree : Option (Stmt Place)) (index : Option Nat)
    (state : State) : Prop :=
  Option.Rel (StmtAt input.interner state.arena) index tree ∧ Grown 0 0 1 start state

theorem firstClause_agrees (here : Here input state 0 0 0 progress state) :
    Agrees input state (StoresFirst input state) (Lox.Parser.firstClause fuel)
      (Parser.firstClause input fuel) progress state := by
  refine here.current fun item reads => ?_
  refine here.eat .symbol (fun here => ?_) (here.eat .keyword (fun here => ?_) ?_)
  · exact .pure here.beside ⟨.none, here.grown.le (by omega) (by omega) (by omega)⟩
  · have here : Here input _ 1 1 1 _ _ := here.le (by omega) (by omega) (by omega)
    exact (declareRest_agrees here reads).map fun _ _ _ ⟨stands, grown⟩ => ⟨.some stands, grown⟩
  · exact (expressionStatement_agrees here).map fun _ _ _ ⟨stands, grown⟩ =>
      ⟨.some stands, grown⟩

/-- A condition that is left out has not been stored yet. -/
def ConditionAt (input : Input) (arena : Arena) : Option Nat × Item → Expr Place → Prop
  | (some index, _), tree => ExprAt input.interner arena index tree
  | (none, close), tree => tree = .literal close.place (.bool true)

theorem ConditionAt.mono {first second : Arena} {condition : Option Nat × Item} {tree : Expr Place}
    (stands : ConditionAt input first condition tree) (further : first.Extends second) :
    ConditionAt input second condition tree := by
  obtain ⟨index, close⟩ := condition
  cases index with
  | none => exact stands
  | some index => exact ExprAt.mono (.refl _) further stands

def StoresCondition (input : Input) (start : State) (tree : Expr Place)
    (condition : Option Nat × Item) (state : State) : Prop :=
  ConditionAt input state.arena condition tree ∧ Grown 1 1 1 start state

theorem conditionClause_agrees (here : Here input state 0 0 0 progress state) :
    Agrees input state (StoresCondition input state) (Lox.Parser.conditionClause fuel)
      (Parser.conditionClause input fuel) progress state := by
  refine here.check ?_
  cases progress.cursor.check (.symbol .semicolon) with
  | true =>
    refine here.expect .symbol fun close reads here => .pure here.beside ⟨?_, ?_⟩
    · rw [ConditionAt, Item.place, reads.line, reads.span]
      rfl
    · exact here.grown.le (by omega) (by omega) (by omega)
  | false =>
    refine here.someExpression fun here _ stands => here.expect .symbol fun close _ here => ?_
    exact .pure here.beside ⟨stands, here.grown.le (by omega) (by omega) (by omega)⟩

/-- A last clause can be stored as a statement and listed. -/
def StoresLast (input : Input) (start : State) (tree : Option (Expr Place)) (index : Option Nat)
    (state : State) : Prop :=
  Option.Rel (ExprAt input.interner state.arena) index tree ∧
    Grown 0 (1 + index.toList.length) (1 + index.toList.length) start state

theorem lastClause_agrees (here : Here input state 0 0 0 progress state) :
    Agrees input state (StoresLast input state) (Lox.Parser.lastClause fuel)
      (Parser.lastClause input fuel) progress state := by
  refine here.check ?_
  cases progress.cursor.check (.symbol .rightParen) with
  | true =>
    refine here.expect .symbol fun _ _ here => .pure here.beside ⟨.none, ?_⟩
    exact here.grown.le (by omega) (by simp) (by simp)
  | false =>
    refine here.someExpression fun here _ stands => here.expect .symbol fun _ _ here => ?_
    exact .pure here.beside ⟨.some stands, here.grown.le (by omega) (by simp) (by simp)⟩

theorem storeStep_ok {last : Option Nat} {tree : Option (Expr Place)}
    (here : Here input start exprs (stmts + last.toList.length) lists progress state)
    (stands : Option.Rel (ExprAt input.interner state.arena) last tree) :
    ∃ ids after, Parser.storeStep last state = .ok ids after ∧
      Here input start exprs stmts lists progress after ∧ state.arena.Extends after.arena ∧
        List.Forall₂ (StmtAt input.interner after.arena) ids
          (tree.toList.map fun expr => .expression expr.place expr) := by
  cases stands with
  | none => exact ⟨[], state, rfl, here, .refl _, .nil⟩
  | @some expr tree stands =>
    obtain ⟨kind, readExpr⟩ := readsExpr stands
    obtain ⟨index, after, ran, here, further, found⟩ :=
      here.storeStmt ⟨.expression expr, tree.place⟩
    refine ⟨[index], after, ?_, here, further, .cons (.expression found ?_) .nil⟩
    · rw [Parser.storeStep, Sequencing.bind_ok readExpr, Sequencing.bind_ok ran]
      rfl
    · exact stands.mono (.refl _) further

theorem storeCondition_ok {condition : Option Nat × Item} {tree : Expr Place}
    (here : Here input start (exprs + 1) stmts lists progress state)
    (stands : ConditionAt input state.arena condition tree) :
    ∃ index after, Parser.storeCondition condition state = .ok index after ∧
      Here input start exprs stmts lists progress after ∧ state.arena.Extends after.arena ∧
        ExprAt input.interner after.arena index tree := by
  obtain ⟨index, close⟩ := condition
  cases index with
  | some index =>
    exact ⟨index, state, rfl, here.le (by omega) (by omega) (by omega), .refl _, stands⟩
  | none =>
    obtain rfl : tree = .literal close.place (.bool true) := stands
    obtain ⟨index, after, ran, here, further, found⟩ := here.storeExpr _
    exact ⟨index, after, ran, here, further, .literal found .bool⟩

theorem storeLoop_agrees {firstIndex lastIndex : Option Nat} {bodyIndex : Nat}
    {first : Option (Stmt Place)} {condition : Option Nat × Item} {test : Expr Place}
    {last : Option (Expr Place)} {body : Stmt Place}
    (here : Here input start 1 (3 + lastIndex.toList.length)
      (3 + firstIndex.toList.length + lastIndex.toList.length) progress state)
    (reads : keyword.Reads input.interner token)
    (firstAt : Option.Rel (StmtAt input.interner state.arena) firstIndex first)
    (testAt : ConditionAt input state.arena condition test)
    (lastAt : Option.Rel (ExprAt input.interner state.arena) lastIndex last)
    (bodyAt : StmtAt input.interner state.arena bodyIndex body) :
    Agrees input start (StoresStmt input start 0 0 1)
      (do
        let bodySpan ← Lox.Parser.spanFrom body.place.span
        return .forLoop (← Lox.Parser.placeFrom token) first test last bodySpan body)
      (Parser.storeLoop input keyword firstIndex condition lastIndex bodyIndex) progress state := by
  obtain ⟨kind, readBody⟩ := readsStmt bodyAt
  refine .step readBody (.steps rfl (here.readsSpan _) ?_)
  rw [reads.line]
  -- The body and the step become a block, whose entries the clauses have paid for.
  obtain ⟨steps, stepped, ran, here, toStep, stepsAt⟩ := storeStep_ok here lastAt
  have length : steps.length = lastIndex.toList.length := by
    rw [stepsAt.length_eq]
    cases lastAt <;> rfl
  have here : Here input start 1 (2 + 1) (2 + firstIndex.toList.length + (bodyIndex :: steps).length)
      progress stepped := here.le (by omega) (by omega) (by simp only [List.length_cons]; omega)
  obtain ⟨entries, listed, ran', here, toList, list⟩ := here.storeStmts
  obtain ⟨round, rounded, ran'', here, toRound, node⟩ := here.storeStmt _
  refine .step ran (.step ran' (.step ran'' ?_))
  have inner := List.Forall₂.cons (bodyAt.mono (.refl _) toStep) stepsAt
  have roundAt := StmtAt.block node (toRound.stmtLists.list list)
    (stmtsAt_mono (.refl _) (toList.trans toRound) inner)
  have toRound := (toStep.trans toList).trans toRound
  -- The block becomes the body of a loop.
  have testAt : ConditionAt input rounded.arena condition test := testAt.mono toRound
  obtain ⟨condition, tested, ran, here, toTest, testAt⟩ := storeCondition_ok here testAt
  obtain ⟨loop, looped, ran', here, toLoop, node⟩ := here.finish reads (.whileLoop condition round)
  refine .step ran (.step ran' ?_)
  have loopAt := StmtAt.whileLoop node (testAt.mono (.refl _) toLoop)
    (roundAt.mono (.refl _) (toTest.trans toLoop))
  have toLoop := (toRound.trans toTest).trans toLoop
  -- The loop becomes a block with what is done first.
  have firstsAt : List.Forall₂ (StmtAt input.interner looped.arena) firstIndex.toList first.toList := by
    cases firstAt with
    | none => exact .nil
    | some stands => exact .cons (stands.mono (.refl _) toLoop) .nil
  have here : Here input start 0 (0 + 1) (1 + (firstIndex.toList ++ [loop]).length) progress looped :=
    here.le (by omega) (by omega) (by rw [List.length_append, List.length_singleton]; omega)
  obtain ⟨outer, whole, ran, here, toWhole, list⟩ := here.storeStmts
  refine .step ran (here.finishes reads fun further found => ?_)
  have outerAt := List.rel_append firstsAt (.cons loopAt .nil)
  exact .block found (further.stmtLists.list list)
    (stmtsAt_mono (.refl _) (toWhole.trans further) outerAt)

theorem skip_eq (beside : Beside input progress state) :
    input.skip state.index =
      if progress.cursor.atEnd || progress.cursor.atBoundary then .ok state.index
      else input.skip (state.index + 1) := by
  obtain ⟨item, found, reads, -⟩ := beside.split
  obtain ⟨before, foundBefore, readsBefore⟩ := beside.previous
  have boundary : (before.kind.shape.same (.symbol .semicolon) ||
      Cursor.declarationStart.contains item.kind.shape) = progress.cursor.atBoundary := by
    rw [readsBefore.kind.same_eq, reads.kind.contains_eq]
    rfl
  have ends : item.isEof = progress.cursor.atEnd := reads.isEof_eq
  rw [Input.skip]
  split
  next none =>
    rw [none] at found
    cases found
  next item' some =>
    obtain rfl := Option.some.inj (some.symm.trans found)
    simp only [ends, foundBefore, bind, Except.bind, boundary, Bool.or_eq_true, ite_or]
    rfl

/-- Steps to the nearest boundary lead to the same place. -/
theorem skip_beside {previous current : Token} {ahead : List Token} {errors : Array ParseError}
    (beside : Beside input ⟨⟨previous, current, ahead⟩, errors⟩ state) :
    ∃ index, input.skip state.index = .ok index ∧ state.index ≤ index ∧
      Beside input ⟨Cursor.skip previous current ahead, errors⟩ { state with index } := by
  induction ahead generalizing previous current state with
  | nil =>
    have last : Cursor.atEnd ⟨previous, current, []⟩ = true := by
      by_contra moving
      exact (beside.closed.tail (mt Cursor.atEnd_iff.mpr moving)).ne_nil rfl
    refine ⟨state.index, ?_, Nat.le_refl _, ?_⟩
    · rw [skip_eq beside, last]
      rfl
    · rw [Cursor.skip, last]
      exact beside
  | cons next ahead ih =>
    rw [skip_eq beside, Cursor.skip]
    split
    · exact ⟨state.index, rfl, Nat.le_refl _, beside⟩
    next goes =>
      have moving : ¬ Cursor.atEnd ⟨previous, current, next :: ahead⟩ = true := by
        intro last
        exact goes (by rw [last]; rfl)
      have moved := beside.advance (mt Cursor.atEnd_iff.mpr moving)
      rw [Progress.advanced, Cursor.advance, if_neg moving] at moved
      obtain ⟨index, ran, further, beside⟩ := ih moved
      exact ⟨index, ran, Nat.le_of_succ_le further, beside⟩

/-- The step past the item in error, which stays at the end of the input. -/
theorem advance_beside (beside : Beside input progress state) :
    ∃ item after, Parser.advance input state = .ok item after ∧ after.arena = state.arena ∧
      state.index ≤ after.index ∧ after.errors = state.errors ∧
        Beside input ⟨progress.cursor.advance, progress.errors⟩ after := by
  obtain ⟨item, found, reads⟩ := beside.current
  have ran : Parser.current input state = .ok item state := by
    rw [Parser.current, found]
    rfl
  rw [Parser.advance, Sequencing.bind_ok ran]
  by_cases last : progress.here = .eof
  · have stays : progress.cursor.advance = progress.cursor := if_pos (Cursor.atEnd_iff.mpr last)
    rw [if_pos (reads.isEof_iff.mpr last), stays]
    exact ⟨item, state, rfl, rfl, Nat.le_refl _, rfl, beside⟩
  · rw [if_neg (mt reads.isEof_iff.mp last)]
    exact ⟨item, state.advanced, rfl, rfl, Nat.le_succ _, rfl, beside.advance last⟩

theorem synchronize_beside (beside : Beside input progress state) :
    ∃ index, Parser.synchronize input state = .ok () { state with index } ∧ state.index ≤ index ∧
      Beside input ⟨progress.cursor.synchronize, progress.errors⟩ { state with index } := by
  obtain ⟨item, middle, advanced, arena, further, errors, beside⟩ := advance_beside beside
  rw [Cursor.synchronize]
  generalize progress.cursor.advance = next at beside ⊢
  obtain ⟨index, skipped, again, beside⟩ := skip_beside beside
  have reached : Parser.boundary input middle = .ok index middle := reach_ok skipped
  have same : { middle with index } = { state with index } := by rw [arena, errors]
  rw [same] at beside
  refine ⟨index, ?_, Nat.le_trans further again, beside⟩
  rw [Parser.synchronize, Sequencing.bind_ok advanced, Sequencing.bind_ok reached, ← same]
  rfl

/-- A declaration, if there is one, has been stored and can be listed. -/
def StoresDeclaration (input : Input) (start : State) (tree : Option (Stmt Place))
    (index : Option Nat) (state : State) : Prop :=
  Option.Rel (StmtAt input.interner state.arena) index tree ∧
    Grown 0 0 index.toList.length start state

theorem Beside.reported (beside : Beside input progress state) (error : ParseError) :
    Beside input ⟨progress.cursor, progress.errors.push error⟩
      { state with errors := state.errors.push error } :=
  ⟨beside.tokens, beside.previous, beside.closed, congrArg (·.push error) beside.errors⟩

/-- Parsing goes on behind an error that has been reported. -/
theorem recover_failed {tree : Lox.Parser (Stmt Place)} {flat : Parser Nat} {error : ParseError}
    {progress' : Progress} {state' : State} (ran : tree progress = .error (.failed error) progress')
    (ran' : flat state = .error (.failed error) state') (beside : Beside input progress' state')
    (grown : Grown 0 0 0 start state') :
    Agrees input start (StoresDeclaration input start) (Lox.Parser.recover tree)
      (Parser.recover input flat) progress state := by
  obtain ⟨index, resumed, further, beside⟩ := synchronize_beside (beside.reported error)
  have recovered : Lox.Parser.recover tree progress =
      .ok none ⟨progress'.cursor.synchronize, progress'.errors.push error⟩ := by
    rw [Lox.Parser.recover, ran]
  have recovered' : Parser.recover input flat state =
      .ok none { state' with index, errors := state'.errors.push error } := by
    have reported : Parser.report error state' =
        .ok () { state' with errors := state'.errors.push error } := rfl
    rw [Parser.recover, ran']
    simp only [Sequencing.bind_ok reported, Sequencing.bind_ok resumed]
    rfl
  obtain ⟨one, two, three, arena⟩ := grown
  simp only at further
  unfold Agrees
  rw [recovered, recovered']
  exact ⟨beside, .none, by simp only; omega, by simp only; omega,
    by simp only [Option.toList_none, List.length_nil]; omega, arena⟩

theorem recover_agrees {tree : Lox.Parser (Stmt Place)} {flat : Parser Nat}
    (agrees : Agrees input start (StoresStmt input start 0 0 1) tree flat progress state) :
    Agrees input start (StoresDeclaration input start) (Lox.Parser.recover tree)
      (Parser.recover input flat) progress state := by
  unfold Agrees at agrees
  split at agrees
  next ran ran' =>
    obtain ⟨beside, stands, grown⟩ := agrees
    unfold Agrees
    rw [Lox.Parser.recover, ran, Parser.recover, ran']
    exact ⟨beside, .some stands, grown⟩
  next ran ran' =>
    obtain ⟨rfl, beside, grown⟩ := agrees
    exact recover_failed ran ran' beside grown
  next ran ran' =>
    unfold Agrees
    rw [Lox.Parser.recover, ran, Parser.recover, ran']
    trivial
  next => exact agrees.elim

/-- The entries of a block have been stored, behind those before, each with its place in a list. -/
def StoresBlock (input : Input) (start : State) (before : Nat) (trees : List (Stmt Place))
    (ids : List Nat) (state : State) : Prop :=
  List.Forall₂ (StmtAt input.interner state.arena) ids trees ∧
    Grown 1 1 (ids.length - before + 1) start state

/-- The functions for statements agree, with some budget. -/
structure StatementsAgree (input : Input) (fuel : Nat) : Prop where
  declaration : ∀ {progress state}, Here input state 0 0 0 progress state →
    Agrees input state (StoresDeclaration input state) (Lox.Parser.declaration fuel)
      (Parser.declaration input fuel) progress state
  functionRest : ∀ {token keyword start progress state}, keyword.Reads input.interner token →
    Here input start 1 1 1 progress state →
    Agrees input start (StoresStmt input start 0 0 1) (Lox.Parser.functionRest fuel token)
      (Parser.functionRest input fuel keyword) progress state
  statement : ∀ {progress state}, Here input state 0 0 0 progress state →
    Agrees input state (StoresStmt input state 0 0 1) (Lox.Parser.statement fuel)
      (Parser.statement input fuel) progress state
  blockRest : ∀ {trees ids progress state}, Here input state 0 0 0 progress state →
    List.Forall₂ (StmtAt input.interner state.arena) ids.toList trees.toList →
    Agrees input state (StoresBlock input state ids.size) (Lox.Parser.blockRest fuel trees)
      (Parser.blockRest input fuel ids) progress state
  ifRest : ∀ {token keyword start progress state}, keyword.Reads input.interner token →
    Here input start 1 1 1 progress state →
    Agrees input start (StoresStmt input start 0 0 1) (Lox.Parser.ifRest fuel token)
      (Parser.ifRest input fuel keyword) progress state
  whileRest : ∀ {token keyword start progress state}, keyword.Reads input.interner token →
    Here input start 1 1 1 progress state →
    Agrees input start (StoresStmt input start 0 0 1) (Lox.Parser.whileRest fuel token)
      (Parser.whileRest input fuel keyword) progress state
  forRest : ∀ {token keyword start progress state}, keyword.Reads input.interner token →
    Here input start 1 1 1 progress state →
    Agrees input start (StoresStmt input start 0 0 1) (Lox.Parser.forRest fuel token)
      (Parser.forRest input fuel keyword) progress state

namespace StatementsAgree

theorem zero : StatementsAgree input 0 where
  declaration _ := .exhausted
  functionRest _ _ := .exhausted
  statement _ := .exhausted
  blockRest _ _ := .exhausted
  ifRest _ _ := .exhausted
  whileRest _ _ := .exhausted
  forRest _ _ := .exhausted

variable (ih : StatementsAgree input fuel)
include ih

/-- A statement within another one, which leaves enough to be listed. -/
theorem within {α β : Type} {post : α → β → State → Prop} {next : Stmt Place → Lox.Parser α}
    {next' : Nat → Parser β} (here : Here input start exprs stmts lists progress state)
    (goesOn : ∀ {tree index progress after}, Here input start exprs stmts (lists + 1) progress after →
      state.arena.Extends after.arena → StmtAt input.interner after.arena index tree →
        Agrees input start post (next tree) (next' index) progress after) :
    Agrees input start post (Lox.Parser.statement fuel >>= next)
      (Parser.statement input fuel >>= next') progress state :=
  here.bind (ih.statement here.anew) fun _ _ _ _ => goesOn

theorem declaration_succ (here : Here input state 0 0 0 progress state) :
    Agrees input state (StoresDeclaration input state) (Lox.Parser.declaration (fuel + 1))
      (Parser.declaration input (fuel + 1)) progress state := by
  refine recover_agrees (here.current fun item reads => ?_)
  refine here.eat .keyword (fun here => ?_) (here.eat .keyword (fun here => ?_) ?_)
  · exact declareRest_agrees (here.le (by omega) (by omega) (by omega)) reads
  · exact ih.functionRest reads (here.le (by omega) (by omega) (by omega))
  · exact ih.statement here

theorem ifRest_succ (reads : keyword.Reads input.interner token)
    (here : Here input start 1 1 1 progress state) :
    Agrees input start (StoresStmt input start 0 0 1) (Lox.Parser.ifRest (fuel + 1) token)
      (Parser.ifRest input (fuel + 1) keyword) progress state := by
  refine here.expect .symbol fun _ _ here => here.expression fun here _ test => ?_
  refine here.expect .symbol fun _ _ here => ih.within here fun here further body => ?_
  have test := test.mono (.refl _) further
  refine here.eat .keyword (fun here => ih.within here fun here further other => ?_) ?_
  · have test := test.mono (.refl _) further
    have body := body.mono (.refl _) further
    refine (here.le (by omega) (by omega) (by omega)).finishes reads fun further found => ?_
    exact .ifElse found (test.mono (.refl _) further) (body.mono (.refl _) further)
      (other.mono (.refl _) further)
  · refine (here.le (by omega) (by omega) (by omega)).finishes reads fun further found => ?_
    exact .ifThen found (test.mono (.refl _) further) (body.mono (.refl _) further)

theorem whileRest_succ (reads : keyword.Reads input.interner token)
    (here : Here input start 1 1 1 progress state) :
    Agrees input start (StoresStmt input start 0 0 1) (Lox.Parser.whileRest (fuel + 1) token)
      (Parser.whileRest input (fuel + 1) keyword) progress state := by
  refine here.expect .symbol fun _ _ here => here.expression fun here _ test => ?_
  refine here.expect .symbol fun _ _ here => ih.within here fun here further body => ?_
  have test := test.mono (.refl _) further
  refine (here.le (by omega) (by omega) (by omega)).finishes reads fun further found => ?_
  exact .whileLoop found (test.mono (.refl _) further) (body.mono (.refl _) further)

theorem forRest_succ (reads : keyword.Reads input.interner token)
    (here : Here input start 1 1 1 progress state) :
    Agrees input start (StoresStmt input start 0 0 1) (Lox.Parser.forRest (fuel + 1) token)
      (Parser.forRest input (fuel + 1) keyword) progress state := by
  refine here.expect .symbol fun _ _ here => ?_
  refine here.bind (firstClause_agrees here.anew)
    fun first firstIndex progress state here _ firstAt => ?_
  refine here.bind (conditionClause_agrees here.anew)
    fun test condition progress state here toTest testAt => ?_
  refine here.bind (lastClause_agrees here.anew)
    fun last lastIndex progress state here toLast lastAt => ?_
  refine ih.within here fun here toBody bodyAt => ?_
  have toBody' := toLast.trans toBody
  have few : firstIndex.toList.length ≤ 1 := by cases firstIndex <;> simp
  exact storeLoop_agrees (here.le (by omega) (by omega) (by omega)) reads
    (optional_imp firstAt (·.mono (.refl _) (toTest.trans toBody'))) (testAt.mono toBody')
    (optional_imp lastAt (·.mono (.refl _) toBody)) bodyAt

theorem blockRest_succ {trees : Array (Stmt Place)} {ids : Array Nat}
    (here : Here input state 0 0 0 progress state)
    (before : List.Forall₂ (StmtAt input.interner state.arena) ids.toList trees.toList) :
    Agrees input state (StoresBlock input state ids.size) (Lox.Parser.blockRest (fuel + 1) trees)
      (Parser.blockRest input (fuel + 1) ids) progress state := by
  refine here.check (here.atEnd ?_)
  split
  · refine here.expect .symbol fun _ _ here => .pure here.beside ⟨before, ?_⟩
    exact here.grown.le (by omega) (by omega) (by simp)
  · refine here.bind (ih.declaration here) fun tree index progress after here further stands => ?_
    have before := stmtsAt_mono (.refl _) further before
    cases stands with
    | none =>
      exact ((ih.blockRest here.anew before).within here.grown).mono
        fun trees ids' after ⟨entries, further⟩ =>
          ⟨entries, (here.grown.trans further).le (by omega) (by omega) (by omega)⟩
    | @some index tree stands =>
      have entries : List.Forall₂ (StmtAt input.interner after.arena) (ids.push index).toList
          (trees.push tree).toList := by
        rw [Array.toList_push, Array.toList_push]
        exact List.rel_append before (.cons stands .nil)
      refine ((ih.blockRest here.anew entries).within here.grown).mono
        fun trees ids' after ⟨entries, further⟩ =>
          ⟨entries, (here.grown.trans further).le (by omega) (by omega) ?_⟩
      simp only [Array.size_push, Option.toList_some, List.length_singleton]
      omega

/-- The entries of a block behind its opening brace. -/
theorem block {α β : Type} {post : α → β → State → Prop} {next : List (Stmt Place) → Lox.Parser α}
    {next' : List Nat → Parser β} (here : Here input start exprs stmts lists progress state)
    (goesOn : ∀ {trees ids progress after},
      Here input start (exprs + 1) (stmts + 1) (lists + (ids.length + 1)) progress after →
        state.arena.Extends after.arena → List.Forall₂ (StmtAt input.interner after.arena) ids trees →
          Agrees input start post (next trees) (next' ids) progress after) :
    Agrees input start post (Lox.Parser.blockRest fuel #[] >>= next)
      (Parser.blockRest input fuel #[] >>= next') progress state :=
  here.bind (ih.blockRest here.anew .nil) fun _ _ _ _ => goesOn

theorem functionRest_succ (reads : keyword.Reads input.interner token)
    (here : Here input start 1 1 1 progress state) :
    Agrees input start (StoresStmt input start 0 0 1) (Lox.Parser.functionRest (fuel + 1) token)
      (Parser.functionRest input (fuel + 1) keyword) progress state := by
  refine here.expectName fun name text gave here => here.expect .symbol fun _ _ here => ?_
  have rest : ∀ {texts names progress state}, Here input start names.length 1 1 progress state →
      List.Forall₂ input.interner.Gave names texts →
      Agrees input start (StoresStmt input start 0 0 1)
        (do
          let _ ← Lox.Parser.expect (.symbol .rightParen) "expected ')' after parameters"
          let _ ← Lox.Parser.expect (.symbol .leftBrace) "expected '\x7b' before function body"
          let body ← Lox.Parser.blockRest fuel #[]
          return .function (← Lox.Parser.placeFrom token) text texts body)
        (do
          let _ ← Parser.expect input (.symbol .rightParen) "expected ')' after parameters"
          let _ ← Parser.expect input (.symbol .leftBrace) "expected '\x7b' before function body"
          let body ← Parser.blockRest input fuel #[]
          let params ← Parser.storeParams names
          let body ← Parser.storeStmts body
          Parser.finish input keyword (.function name params body)) progress state := by
    intro texts names progress state here gaveAll
    refine here.expect .symbol fun _ _ here => here.expect .symbol fun _ _ here => ?_
    refine ih.block here fun {trees ids progress after} here further entries => ?_
    have here : Here input start (0 + names.length) (0 + 1) (1 + ids.length) progress after :=
      here.le (by omega) (by omega) (by omega)
    obtain ⟨params, middle, ran, here, further, labels⟩ := here.storeParams
    refine .step ran ?_
    have entries := stmtsAt_mono (.refl _) further entries
    obtain ⟨body, last, ran, here, further, list⟩ := here.storeStmts
    refine .step ran (here.finishes reads fun again found => ?_)
    have further' := further.trans again
    exact .function found gave (further'.params.list labels) gaveAll (again.stmtLists.list list)
      (stmtsAt_mono (.refl _) further' entries)
  refine here.check ?_
  cases progress.advanced.advanced.cursor.check (.symbol .rightParen) with
  | true => exact rest (here.le (Nat.zero_le _) (by omega) (by omega)) .nil
  | false =>
    refine here.bind (parameters_agree here.anew .nil)
      fun texts names progress state here _ gaveAll => ?_
    exact rest (here.le (by simp) (by omega) (by omega)) gaveAll

omit ih in
/-- The step past a keyword. -/
theorem advanced (here : Here input state 0 0 0 progress state) (moving : progress.here ≠ .eof)
    {tree : Lox.Parser (Stmt Place)} {flat : Parser Nat}
    (agrees : Here input state 1 1 1 progress.advanced state.advanced →
      Agrees input state (StoresStmt input state 0 0 1) tree flat progress.advanced state.advanced) :
    Agrees input state (StoresStmt input state 0 0 1) (do Lox.Parser.advance; tree)
      (do let _ ← Parser.advance input; flat) progress state :=
  here.advance moving fun _ here => agrees (here.le (by omega) (by omega) (by omega))

theorem statement_succ (here : Here input state 0 0 0 progress state) :
    Agrees input state (StoresStmt input state 0 0 1) (Lox.Parser.statement (fuel + 1))
      (Parser.statement input (fuel + 1)) progress state := by
  refine here.current fun keyword reads => ?_
  have other : Agrees input state (StoresStmt input state 0 0 1)
      (Lox.Parser.expressionStatement fuel) (Parser.expressionStatement input fuel) progress state :=
    expressionStatement_agrees here
  have kinds := reads.kind
  generalize stands : progress.cursor.current.kind = kind at kinds
  generalize written : keyword.kind = kind' at kinds
  cases kinds with
  | identifier | string | number | eof => exact other
  | @symbol sign =>
    cases sign with
    | leftBrace =>
      have moving : progress.here ≠ .eof := fun last => by cases stands.symm.trans last
      refine here.advance moving fun _ here => ?_
      refine ih.block here fun {trees ids progress after} here _ entries => ?_
      have here : Here input state 0 (0 + 1) (1 + ids.length) progress after :=
        here.le (by omega) (by omega) (by omega)
      obtain ⟨range, last, ran, here, further, list⟩ := here.storeStmts
      refine .step ran (here.finishes reads fun again found => ?_)
      exact .block found (again.stmtLists.list list)
        (stmtsAt_mono (.refl _) (further.trans again) entries)
    | _ => exact other
  | @keyword word =>
    have moving : progress.here ≠ .eof := fun last => by cases stands.symm.trans last
    cases word with
    | forWord => exact advanced here moving (ih.forRest reads)
    | ifWord => exact advanced here moving (ih.ifRest reads)
    | printWord => exact advanced here moving fun here => printRest_agrees here reads
    | returnWord => exact advanced here moving fun here => returnRest_agrees here reads
    | whileWord => exact advanced here moving (ih.whileRest reads)
    | breakWord => exact advanced here moving fun here => breakRest_agrees here reads
    | continueWord => exact advanced here moving fun here => continueRest_agrees here reads
    | _ => exact other

omit ih in
/-- The induction over the functions for statements, on the budget. -/
theorem everywhere (fuel : Nat) : StatementsAgree input fuel := by
  induction fuel with
  | zero => exact zero
  | succ fuel ih =>
    exact ⟨ih.declaration_succ, ih.functionRest_succ, ih.statement_succ, ih.blockRest_succ,
      ih.ifRest_succ, ih.whileRest_succ, ih.forRest_succ⟩

end StatementsAgree

/-- What stands in a list of statements is the program. -/
def ProgramAt (interner : Interner) (arena : Arena) (range : Range) (program : Program) : Prop :=
  ∃ ids, readList arena.stmtLists range = .ok ids ∧
    List.Forall₂ (StmtAt interner arena) ids program

theorem program_agrees {trees : Array (Stmt Place)} {ids : Array Nat}
    (here : Here input start 0 0 ids.size progress state)
    (before : List.Forall₂ (StmtAt input.interner state.arena) ids.toList trees.toList) :
    Agrees input start (fun program range state => ProgramAt input.interner state.arena range program)
      (Lox.Parser.program fuel trees) (Parser.program input fuel ids) progress state := by
  induction fuel generalizing trees ids progress state with
  | zero => exact .exhausted
  | succ fuel ih =>
    refine here.atEnd ?_
    split
    · have here : Here input start 0 0 (0 + ids.toList.length) progress state :=
        here.le (by omega) (by omega) (by simp)
      obtain ⟨range, after, ran, here, further, list⟩ := here.storeStmts
      exact .last (.step ran (.pure here.beside ⟨_, list, stmtsAt_mono (.refl _) further before⟩))
    · refine here.bind ((StatementsAgree.everywhere fuel).declaration here.anew)
        fun tree index progress after here further stands => ?_
      have before := stmtsAt_mono (.refl _) further before
      cases stands with
      | none => exact ih here before
      | @some index tree stands =>
        refine ih (here.le (by omega) (by omega) (by simp)) ?_
        rw [Array.toList_push, Array.toList_push]
        exact List.rel_append before (.cons stands .nil)

end Lox.Flat
