import Lox.Proofs.FlatParserRules

/-! Expressions are parsed over flat memory as they are into trees. What an expression is stored in is
paid for by its own tokens, and it leaves enough to be a statement and to be listed. -/

namespace Lox.Flat

variable {input : Input} {start state : State} {progress : Progress} {fuel : Nat}

/-- The expression has been stored, and so much is left. -/
def StoresExpr (input : Input) (start : State) (exprs stmts lists : Nat) (tree : Expr Place)
    (index : Nat) (state : State) : Prop :=
  ExprAt input.interner state.arena index tree ∧ Grown exprs stmts lists start state

/-- The arguments have been stored, behind those before. All but one are paid for, which the closing
parenthesis will. -/
def StoresArguments (input : Input) (start : State) (before : Nat) (trees : List (Expr Place))
    (ids : List Nat) (state : State) : Prop :=
  List.Forall₂ (ExprAt input.interner state.arena) ids trees ∧
    Grown (ids.length - (before + 1)) 0 0 start state

/-- A tree that the node last stored stands for. -/
theorem Here.stores {exprs stmts lists : Nat} {tree : Expr Place} {node : ExprNode}
    (here : Here input start (exprs + 1) stmts lists progress state)
    (holds : ∀ {arena index}, state.arena.Extends arena → readNode arena.exprs index = .ok node →
      ExprAt input.interner arena index tree) :
    Agrees input start (StoresExpr input start exprs stmts lists) (pure tree)
      (Parser.storeExpr node) progress state := by
  obtain ⟨index, after, ran, here, further, found⟩ := here.storeExpr node
  exact .last (.step ran (.pure here.beside ⟨holds further found, here.grown⟩))

/-- The rest is left to another parser. -/
theorem Here.ends {exprs stmts lists exprs' stmts' lists' exprs'' stmts'' lists'' : Nat}
    {tree : Lox.Parser (Expr Place)} {flat : Parser Nat}
    (here : Here input start exprs stmts lists progress state)
    (agrees : Agrees input state (StoresExpr input state exprs' stmts' lists') tree flat progress
      state) (fewer : exprs'' ≤ exprs + exprs') (fewer' : stmts'' ≤ stmts + stmts')
    (fewer'' : lists'' ≤ lists + lists') :
    Agrees input start (StoresExpr input start exprs'' stmts'' lists'') tree flat progress state :=
  (agrees.within here.grown).mono fun _ _ _ ⟨stands, grown⟩ =>
    ⟨stands, (here.grown.trans grown).le fewer fewer' fewer''⟩

theorem joint_stands {interner : Interner} {arena : Arena} {joint : Joint} {line : Nat}
    {index left right : Nat} {leftTree rightTree : Expr Place}
    (node : readNode arena.exprs index = .ok ⟨jointKind left right joint,
      ⟨line, leftTree.place.span.merge rightTree.place.span⟩⟩)
    (first : ExprAt interner arena left leftTree) (second : ExprAt interner arena right rightTree) :
    ExprAt interner arena index (joint.join line leftTree rightTree) := by
  cases joint with
  | logical operator => exact .logical node first second
  | binary operator => exact .binary node first second

/-- A token is an expression on both sides or on neither. -/
theorem leaf_cases {interner : Interner} {item : Item} {token : Token}
    (reads : item.Reads interner token) : token.leaf? = none ∧ item.leaf? = none ∨
      ∃ tree kind, token.leaf? = some tree ∧ item.leaf? = some kind ∧ token.kind ≠ .eof ∧
        ∀ {arena index}, readNode arena.exprs index = .ok ⟨kind, item.place⟩ →
          ExprAt interner arena index tree := by
  obtain ⟨kind, lexeme, line, span⟩ := item
  obtain ⟨other, text, line', span'⟩ := token
  obtain rfl : line = line' := reads.line
  obtain rfl : span = span' := reads.span
  have kinds : kind.Reads interner other := reads.kind
  cases kinds with
  | symbol | eof => exact .inl ⟨rfl, rfl⟩
  | identifier gave => exact .inr ⟨_, _, rfl, rfl, nofun, fun node => .name node gave⟩
  | string gave => exact .inr ⟨_, _, rfl, rfl, nofun, fun node => .literal node (.string gave)⟩
  | number => exact .inr ⟨_, _, rfl, rfl, nofun, fun node => .literal node .number⟩
  | @keyword word =>
    cases word with
    | nilWord => exact .inr ⟨_, _, rfl, rfl, nofun, fun node => .literal node .nil⟩
    | trueWord | falseWord => exact .inr ⟨_, _, rfl, rfl, nofun, fun node => .literal node .bool⟩
    | _ => exact .inl ⟨rfl, rfl⟩

/-- The functions for expressions agree, with some budget. -/
structure ExpressionsAgree (input : Input) (fuel : Nat) : Prop where
  expression : ∀ {progress state}, Here input state 0 0 0 progress state →
    Agrees input state (StoresExpr input state 0 1 1) (Lox.Parser.expression fuel)
      (Parser.expression input fuel) progress state
  chain : ∀ {progress state} (levels), Here input state 0 0 0 progress state →
    Agrees input state (StoresExpr input state 0 1 1) (Lox.Parser.chain fuel levels)
      (Parser.chain input fuel levels) progress state
  chainRest : ∀ {progress state} (level tighter) {tree index},
    Here input state 0 0 0 progress state → ExprAt input.interner state.arena index tree →
    Agrees input state (StoresExpr input state 0 0 0) (Lox.Parser.chainRest fuel level tighter tree)
      (Parser.chainRest input fuel level tighter index) progress state
  unary : ∀ {progress state}, Here input state 0 0 0 progress state →
    Agrees input state (StoresExpr input state 0 1 1) (Lox.Parser.unary fuel)
      (Parser.unary input fuel) progress state
  calls : ∀ {tree index progress state}, Here input state 0 0 0 progress state →
    ExprAt input.interner state.arena index tree →
    Agrees input state (StoresExpr input state 0 0 0) (Lox.Parser.calls fuel tree)
      (Parser.calls input fuel index) progress state
  arguments : ∀ {trees ids progress state}, Here input state 0 0 0 progress state →
    List.Forall₂ (ExprAt input.interner state.arena) ids.toList trees.toList →
    Agrees input state (StoresArguments input state ids.size) (Lox.Parser.arguments fuel trees)
      (Parser.arguments input fuel ids) progress state
  primary : ∀ {progress state}, Here input state 0 0 0 progress state →
    Agrees input state (StoresExpr input state 0 1 1) (Lox.Parser.primary fuel)
      (Parser.primary input fuel) progress state

namespace ExpressionsAgree

theorem zero : ExpressionsAgree input 0 where
  expression _ := .exhausted
  chain _ _ := .exhausted
  chainRest _ _ _ _ _ _ := .exhausted
  unary _ := .exhausted
  calls _ _ := .exhausted
  arguments _ _ := .exhausted
  primary _ := .exhausted

variable (ih : ExpressionsAgree input fuel)
include ih

theorem expression_succ (here : Here input state 0 0 0 progress state) :
    Agrees input state (StoresExpr input state 0 1 1) (Lox.Parser.expression (fuel + 1))
      (Parser.expression input (fuel + 1)) progress state := by
  refine here.bind (ih.chain Level.all here) fun tree target progress state here _ stands => ?_
  refine here.current fun equals reads => here.eat .symbol (fun here => ?_) ?_
  · refine here.bind (ih.expression here.anew)
      fun value index progress state here further stands' => ?_
    have stands := stands.mono (.refl _) further
    obtain ⟨last, readLast⟩ := readsExpr stands'
    cases stands with
    | name node gave =>
      refine .step (readExpr_ok node) (.step readLast ?_)
      refine (here.le (by omega) (by omega) (by omega)).stores fun further found => ?_
      exact .assign found gave (stands'.mono (.refl _) further)
    | literal node _ | grouping node _ | unary node _ | binary node _ _ | logical node _ _
    | assign node _ _ | call node _ _ _ =>
      refine .step (readExpr_ok node) (.step (reach_ok (reads.errorAt _ _)) ?_)
      refine here.report fun here => .pure here.beside ⟨stands', ?_⟩
      exact here.grown.le (by omega) (by omega) (by omega)
  · exact .pure here.beside ⟨stands, here.grown⟩

theorem chain_succ (levels : List Level) (here : Here input state 0 0 0 progress state) :
    Agrees input state (StoresExpr input state 0 1 1) (Lox.Parser.chain (fuel + 1) levels)
      (Parser.chain input (fuel + 1) levels) progress state := by
  cases levels with
  | nil => exact ih.unary here
  | cons level tighter =>
    refine here.bind (ih.chain tighter here) fun tree left progress state here _ stands => ?_
    exact here.ends (ih.chainRest level tighter here.anew stands) (by omega) (by omega) (by omega)

theorem chainRest_succ (level : Level) (tighter : List Level) {tree : Expr Place} {left : Nat}
    (here : Here input state 0 0 0 progress state)
    (stands : ExprAt input.interner state.arena left tree) :
    Agrees input state (StoresExpr input state 0 0 0)
      (Lox.Parser.chainRest (fuel + 1) level tighter tree)
      (Parser.chainRest input (fuel + 1) level tighter left) progress state := by
  refine here.current fun item reads => ?_
  rw [reads.kind.joint?_eq]
  cases found : level.joint? progress.cursor.current.kind with
  | none => exact .pure here.beside ⟨stands, here.grown⟩
  | some joint =>
    have moving : progress.here ≠ .eof := by
      intro last
      have last : progress.cursor.current.kind = .eof := last
      rw [last] at found
      cases level <;> cases found
    refine here.advance moving fun _ here => ?_
    refine here.bind (ih.chain tighter here.anew)
      fun tree' right progress state here further stands' => ?_
    have stands := stands.mono (.refl _) further
    obtain ⟨first, readFirst⟩ := readsExpr stands
    obtain ⟨second, readSecond⟩ := readsExpr stands'
    refine .step readFirst (.step readSecond ?_)
    rw [reads.line]
    have here : Here input _ 1 0 0 progress state := here.le (by omega) (by omega) (by omega)
    obtain ⟨whole, after, ran, here, further, found⟩ := here.storeExpr _
    refine .step ran ?_
    have stands := joint_stands found (stands.mono (.refl _) further)
      (stands'.mono (.refl _) further)
    exact here.ends (ih.chainRest level tighter here.anew stands) (by omega) (by omega) (by omega)

theorem unary_succ (here : Here input state 0 0 0 progress state) :
    Agrees input state (StoresExpr input state 0 1 1) (Lox.Parser.unary (fuel + 1))
      (Parser.unary input (fuel + 1)) progress state := by
  refine here.current fun item reads => ?_
  rw [reads.kind.unaryOperator?_eq]
  cases found : progress.cursor.current.kind.unaryOperator? with
  | none =>
    refine here.bind (ih.primary here) fun tree callee progress state here _ stands => ?_
    exact here.ends (ih.calls here.anew stands) (by omega) (by omega) (by omega)
  | some operator =>
    have moving : progress.here ≠ .eof := by
      intro last
      have last : progress.cursor.current.kind = .eof := last
      rw [last] at found
      cases found
    refine here.advance moving fun _ here => ?_
    refine here.bind (ih.unary here.anew) fun tree operand progress state here _ stands => ?_
    obtain ⟨kind, readOperand⟩ := readsExpr stands
    refine .step readOperand ?_
    rw [reads.line, reads.span]
    refine (here.le (by omega) (by omega) (by omega)).stores fun further found => ?_
    exact .unary found (stands.mono (.refl _) further)

/-- A call, once its arguments are read. The parentheses pay for the call itself and for the last of
its arguments. -/
theorem closeCall {tree : Expr Place} {trees : List (Expr Place)} {callee : Nat} {ids : List Nat}
    (here : Here input start ids.length 0 0 progress state)
    (stands : ExprAt input.interner state.arena callee tree)
    (entries : List.Forall₂ (ExprAt input.interner state.arena) ids trees) :
    Agrees input start (StoresExpr input start 0 0 0)
      (do
        let close ← Lox.Parser.expect (.symbol .rightParen) "expected ')' after arguments"
        Lox.Parser.calls fuel (.call ⟨close.line, tree.place.span.merge close.span⟩ tree trees))
      (do
        let close ← Parser.expect input (.symbol .rightParen) "expected ')' after arguments"
        let range ← Parser.storeExprs ids
        let node ← Parser.readExpr callee
        let whole ← Parser.storeExpr ⟨.call callee range, ⟨close.line, node.place.span.merge close.span⟩⟩
        Parser.calls input fuel whole) progress state := by
  refine here.expect .symbol fun close reads here => ?_
  have here : Here input start (1 + ids.length) 0 0 progress.advanced state.advanced :=
    here.le (by omega) (by omega) (by omega)
  obtain ⟨range, middle, ran, here, further, list⟩ := here.storeExprs
  have stands := stands.mono (.refl _) further
  obtain ⟨kind, readCallee⟩ := readsExpr stands
  refine .step ran (.step readCallee ?_)
  rw [reads.line, reads.span]
  obtain ⟨whole, after, ran, here, again, found⟩ := here.storeExpr _
  refine .step ran ?_
  have called := ExprAt.call found (stands.mono (.refl _) again) (again.exprLists.list list)
    (exprsAt_mono (.refl _) (further.trans again) entries)
  exact here.ends (ih.calls here.anew called) (by omega) (by omega) (by omega)

theorem calls_succ {tree : Expr Place} {callee : Nat} (here : Here input state 0 0 0 progress state)
    (stands : ExprAt input.interner state.arena callee tree) :
    Agrees input state (StoresExpr input state 0 0 0) (Lox.Parser.calls (fuel + 1) tree)
      (Parser.calls input (fuel + 1) callee) progress state := by
  refine here.eat .symbol (fun here => here.check ?_) ?_
  · cases progress.advanced.cursor.check (.symbol .rightParen) with
    | true => exact ih.closeCall (here.le (Nat.zero_le _) (by omega) (by omega)) stands .nil
    | false =>
      refine here.bind (ih.arguments here.anew .nil)
        fun trees ids progress state here further entries => ?_
      refine ih.closeCall (here.le ?_ (by omega) (by omega)) (stands.mono (.refl _) further) entries
      simp only [List.size_toArray, List.length_nil]
      omega
  · exact .pure here.beside ⟨stands, here.grown⟩

theorem arguments_succ {trees : Array (Expr Place)} {ids : Array Nat}
    (here : Here input state 0 0 0 progress state)
    (before : List.Forall₂ (ExprAt input.interner state.arena) ids.toList trees.toList) :
    Agrees input state (StoresArguments input state ids.size)
      (Lox.Parser.arguments (fuel + 1) trees) (Parser.arguments input (fuel + 1) ids) progress
        state := by
  have sizes : ids.size = trees.size := before.length_eq
  have rest : ∀ {progress after}, after.arena = state.arena → Here input state 0 0 0 progress after →
      Agrees input state (StoresArguments input state ids.size)
        (do
          let argument ← Lox.Parser.expression fuel
          if ← Lox.Parser.eat (.symbol .comma) then
            Lox.Parser.arguments fuel (trees.push argument)
          else return (trees.push argument).toList)
        (do
          let argument ← Parser.expression input fuel
          if ← Parser.eat input (.symbol .comma) then
            Parser.arguments input fuel (ids.push argument)
          else return (ids.push argument).toList) progress after := by
    intro progress after same here
    refine here.bind (ih.expression here.anew)
      fun tree index progress after here further stands => ?_
    have before := exprsAt_mono (.refl _) (same ▸ further) before
    have entries : List.Forall₂ (ExprAt input.interner after.arena) (ids.push index).toList
        (trees.push tree).toList := by
      rw [Array.toList_push, Array.toList_push]
      exact List.rel_append before (.cons stands .nil)
    refine here.eat .symbol (fun here => ?_) ?_
    · refine ((ih.arguments here.anew entries).within here.grown).mono fun trees ids after further => ?_
      refine ⟨further.1, (here.grown.trans further.2).le ?_ (by omega) (by omega)⟩
      rw [Array.size_push]
      omega
    · refine .pure here.beside ⟨entries, here.grown.le ?_ (by omega) (by omega)⟩
      simp
  rw [Lox.Parser.arguments, Parser.arguments, ← sizes]
  split
  · exact here.reportHere fun progress after same here => rest same here
  · exact rest rfl here

theorem primary_succ (here : Here input state 0 0 0 progress state) :
    Agrees input state (StoresExpr input state 0 1 1) (Lox.Parser.primary (fuel + 1))
      (Parser.primary input (fuel + 1)) progress state := by
  refine here.current fun item reads => here.eat .symbol (fun here => ?_) ?_
  · refine here.bind (ih.expression here.anew) fun tree inner progress state here _ stands => ?_
    refine here.expect .symbol fun close closes here => ?_
    rw [reads.line, reads.span, closes.span]
    refine (here.le (by omega) (by omega) (by omega)).stores fun further found => ?_
    exact .grouping found (stands.mono (.refl _) further)
  · rcases leaf_cases reads with ⟨none, none'⟩ | ⟨tree, kind, found, found', moving, leaf⟩
    · simp only [none, none']
      exact here.fails rfl (here.failsHere _ _)
    · simp only [found, found']
      refine here.advance moving fun _ here => ?_
      exact (here.le (by omega) (by omega) (by omega)).stores fun _ node => leaf node

omit ih in
/-- The induction over the functions for expressions, on the budget. -/
theorem everywhere (fuel : Nat) : ExpressionsAgree input fuel := by
  induction fuel with
  | zero => exact zero
  | succ fuel ih =>
    exact ⟨ih.expression_succ, ih.chain_succ, ih.chainRest_succ, ih.unary_succ, ih.calls_succ,
      ih.arguments_succ, ih.primary_succ⟩

end ExpressionsAgree

variable {exprs stmts lists : Nat} {α β : Type} {post : α → β → State → Prop}

theorem Here.expression {next : Expr Place → Lox.Parser α} {next' : Nat → Parser β}
    (here : Here input start exprs stmts lists progress state)
    (goesOn : ∀ {tree index progress after}, Here input start exprs (stmts + 1) (lists + 1) progress
      after → state.arena.Extends after.arena → ExprAt input.interner after.arena index tree →
        Agrees input start post (next tree) (next' index) progress after) :
    Agrees input start post (Lox.Parser.expression fuel >>= next)
      (Parser.expression input fuel >>= next') progress state :=
  here.bind ((ExpressionsAgree.everywhere fuel).expression here.anew) fun _ _ _ _ => goesOn

/-- An expression where there might be none. -/
theorem Here.someExpression {next : Option (Expr Place) → Lox.Parser α}
    {next' : Option Nat → Parser β} (here : Here input start exprs stmts lists progress state)
    (goesOn : ∀ {tree index progress after}, Here input start exprs (stmts + 1) (lists + 1) progress
      after → state.arena.Extends after.arena → ExprAt input.interner after.arena index tree →
        Agrees input start post (next (some tree)) (next' (some index)) progress after) :
    Agrees input start post (some <$> Lox.Parser.expression fuel >>= next)
      (some <$> Parser.expression input fuel >>= next') progress state := by
  rw [bind_map_left, bind_map_left]
  exact here.expression goesOn

end Lox.Flat
