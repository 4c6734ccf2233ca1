import Lox.Proofs.CheckedAccess
import Lox.Syntax
import Mathlib.Data.List.Forall2

/-! Programs in flat memory. The nodes of a program lie in tables, and a node refers to others by their
indices. Tables only grow, so what has been stored once is read the same ever after. -/

namespace Lox.Flat

/-- A stretch of a table. -/
structure Range where
  start : Nat
  size : Nat

inductive Literal where
  | nil
  | bool (value : Bool)
  | number (value : Float)
  | string (contents : Name)

inductive ExprKind where
  | literal (value : Literal)
  | grouping (inner : Nat)
  | unary (operator : UnaryOperator) (operand : Nat)
  | binary (operator : BinaryOperator) (left right : Nat)
  | logical (operator : LogicalOperator) (left right : Nat)
  | name (name : Name)
  | assign (name : Name) (value : Nat)
  | call (callee : Nat) (arguments : Range)

structure ExprNode where
  kind : ExprKind
  place : Place

inductive StmtKind where
  | expression (expr : Nat)
  | print (expr : Nat)
  | declare (name : Name) (initial : Option Nat)
  | block (body : Range)
  | branch (condition body : Nat) (other : Option Nat)
  | whileLoop (condition body : Nat)
  | function (name : Name) (params body : Range)
  | returnValue (value : Option Nat)
  | breakLoop
  | continueLoop

structure StmtNode where
  kind : StmtKind
  place : Place

structure Arena where
  exprs : Array ExprNode
  stmts : Array StmtNode
  exprLists : Array Nat
  stmtLists : Array Nat
  params : Array Name

section Tables

variable {α : Type}

/-- A new last entry and its index, which must not be wider than thirty-two bits. -/
def store (table : Array α) (entry : α) : Checked (Nat × Array α) := do
  let index ← fits Span.maxOffset table.size
  return (index, table.push entry)

def storeAll (table : Array α) (entries : List α) : Checked (Range × Array α) := do
  let start ← fits Span.maxOffset table.size
  let size ← fits Span.maxOffset ((table ++ entries.toArray).size - table.size)
  return (⟨start, size⟩, table ++ entries.toArray)

def readNode (table : Array α) (index : Nat) : Checked α := demand .node table[index]?

def readList (table : Array α) (range : Range) : Checked (List α) :=
  if range.start + range.size ≤ table.size then
    .ok (table.extract range.start (range.start + range.size)).toList
  else .error .list

/-- The second table has the entries of the first and maybe more behind them. -/
def Continues (first second : Array α) : Prop := ∃ more, second = first ++ more

variable {first second third table : Array α}

theorem Continues.refl (table : Array α) : Continues table table := ⟨#[], Array.append_empty.symm⟩

theorem Continues.trans (further : Continues first second) (again : Continues second third) :
    Continues first third := by
  obtain ⟨more, rfl⟩ := further
  obtain ⟨most, rfl⟩ := again
  exact ⟨more ++ most, Array.append_assoc⟩

theorem Continues.push (table : Array α) (entry : α) : Continues table (table.push entry) :=
  ⟨#[entry], by simp⟩

theorem Continues.append (table : Array α) (entries : List α) : Continues table (table ++ entries.toArray) :=
  ⟨entries.toArray, by simp⟩

theorem Continues.node {index : Nat} {entry : α} (further : Continues first second)
    (found : readNode first index = .ok entry) : readNode second index = .ok entry := by
  obtain ⟨more, rfl⟩ := further
  have within : index < first.size := by
    by_contra outside
    rw [readNode, Array.getElem?_eq_none (Nat.le_of_not_lt outside)] at found
    cases found
  rw [readNode, Array.getElem?_append_left within]
  exact found

theorem Continues.list {range : Range} {entries : List α} (further : Continues first second)
    (found : readList first range = .ok entries) : readList second range = .ok entries := by
  obtain ⟨more, rfl⟩ := further
  unfold readList at found ⊢
  split at found
  next within =>
    have extracted : (first ++ more).extract range.start (range.start + range.size) =
        first.extract range.start (range.start + range.size) := by
      rw [Array.extract_append, Nat.sub_eq_zero_of_le (by omega : range.start + range.size ≤ first.size)]
      simp
    rw [if_pos (by rw [Array.size_append]; omega), extracted, found]
  next => cases found

theorem store_ok (small : table.size ≤ Span.maxOffset) (entry : α) :
    store table entry = .ok (table.size, table.push entry) := by
  rw [store, fits_ok small]
  rfl

theorem storeAll_ok {entries : List α} (small : table.size + entries.length ≤ Span.maxOffset) :
    storeAll table entries = .ok (⟨table.size, entries.length⟩, table ++ entries.toArray) := by
  have size : (table ++ entries.toArray).size - table.size = entries.length := by simp
  rw [storeAll, fits_ok (by omega), size, fits_ok (by omega)]
  rfl

theorem stored (table : Array α) (entry : α) :
    readNode (table.push entry) table.size = .ok entry := by
  rw [readNode, Array.getElem?_push_size]
  rfl

theorem storedAll (table : Array α) (entries : List α) :
    readList (table ++ entries.toArray) ⟨table.size, entries.length⟩ = .ok entries := by
  rw [readList, if_pos (by simp)]
  simp

end Tables

namespace Arena

def empty : Arena := ⟨#[], #[], #[], #[], #[]⟩

def storeExpr (arena : Arena) (node : ExprNode) : Checked (Nat × Arena) := do
  let (index, exprs) ← store arena.exprs node
  return (index, { arena with exprs })

def storeStmt (arena : Arena) (node : StmtNode) : Checked (Nat × Arena) := do
  let (index, stmts) ← store arena.stmts node
  return (index, { arena with stmts })

def storeExprs (arena : Arena) (entries : List Nat) : Checked (Range × Arena) := do
  let (range, exprLists) ← storeAll arena.exprLists entries
  return (range, { arena with exprLists })

def storeStmts (arena : Arena) (entries : List Nat) : Checked (Range × Arena) := do
  let (range, stmtLists) ← storeAll arena.stmtLists entries
  return (range, { arena with stmtLists })

def storeParams (arena : Arena) (entries : List Name) : Checked (Range × Arena) := do
  let (range, params) ← storeAll arena.params entries
  return (range, { arena with params })

/-- The second arena holds what the first one does, where it does. -/
structure Extends (first second : Arena) : Prop where
  exprs : Continues first.exprs second.exprs
  stmts : Continues first.stmts second.stmts
  exprLists : Continues first.exprLists second.exprLists
  stmtLists : Continues first.stmtLists second.stmtLists
  params : Continues first.params second.params

namespace Extends

variable {first second third : Arena}

theorem refl (arena : Arena) : arena.Extends arena :=
  ⟨.refl _, .refl _, .refl _, .refl _, .refl _⟩

theorem trans (further : first.Extends second) (again : second.Extends third) :
    first.Extends third :=
  ⟨further.exprs.trans again.exprs, further.stmts.trans again.stmts,
    further.exprLists.trans again.exprLists, further.stmtLists.trans again.stmtLists,
    further.params.trans again.params⟩

end Extends

/-- The entries of the tables that expressions and parameters go into. -/
def weight (arena : Arena) : Nat := arena.exprs.size + arena.exprLists.size + arena.params.size

/-- The second arena is the first with so many more expressions and parameters, statements, and
entries in lists of statements. -/
structure Spends (exprs stmts lists : Nat) (first second : Arena) : Prop where
  exprs : second.weight = first.weight + exprs
  stmts : second.stmts.size = first.stmts.size + stmts
  lists : second.stmtLists.size = first.stmtLists.size + lists
  grown : first.Extends second

variable (arena : Arena)

theorem storeExpr_ok (node : ExprNode) (small : arena.exprs.size ≤ Span.maxOffset) :
    ∃ index after, arena.storeExpr node = .ok (index, after) ∧ Spends 1 0 0 arena after ∧
      readNode after.exprs index = .ok node := by
  refine ⟨arena.exprs.size, { arena with exprs := arena.exprs.push node }, ?_, ?_, stored _ _⟩
  · rw [storeExpr, store_ok small]
    rfl
  · refine ⟨?_, rfl, rfl, .push _ _, .refl _, .refl _, .refl _, .refl _⟩
    simp only [weight, Array.size_push]
    omega

theorem storeStmt_ok (node : StmtNode) (small : arena.stmts.size ≤ Span.maxOffset) :
    ∃ index after, arena.storeStmt node = .ok (index, after) ∧ Spends 0 1 0 arena after ∧
      readNode after.stmts index = .ok node := by
  refine ⟨arena.stmts.size, { arena with stmts := arena.stmts.push node }, ?_, ?_, stored _ _⟩
  · rw [storeStmt, store_ok small]
    rfl
  · exact ⟨rfl, Array.size_push _, rfl, .refl _, .push _ _, .refl _, .refl _, .refl _⟩

theorem storeExprs_ok (entries : List Nat)
    (small : arena.exprLists.size + entries.length ≤ Span.maxOffset) :
    ∃ range after, arena.storeExprs entries = .ok (range, after) ∧
      Spends entries.length 0 0 arena after ∧ readList after.exprLists range = .ok entries := by
  refine ⟨_, { arena with exprLists := arena.exprLists ++ entries.toArray }, ?_, ?_,
    storedAll arena.exprLists entries⟩
  · rw [storeExprs, storeAll_ok small]
    rfl
  · refine ⟨?_, rfl, rfl, .refl _, .refl _, .append _ _, .refl _, .refl _⟩
    simp only [weight, Array.size_append, List.size_toArray]
    omega

theorem storeStmts_ok (entries : List Nat)
    (small : arena.stmtLists.size + entries.length ≤ Span.maxOffset) :
    ∃ range after, arena.storeStmts entries = .ok (range, after) ∧
      Spends 0 0 entries.length arena after ∧ readList after.stmtLists range = .ok entries := by
  refine ⟨_, { arena with stmtLists := arena.stmtLists ++ entries.toArray }, ?_, ?_,
    storedAll arena.stmtLists entries⟩
  · rw [storeStmts, storeAll_ok small]
    rfl
  · exact ⟨rfl, rfl, by simp, .refl _, .refl _, .refl _, .append _ _, .refl _⟩

theorem storeParams_ok (entries : List Name)
    (small : arena.params.size + entries.length ≤ Span.maxOffset) :
    ∃ range after, arena.storeParams entries = .ok (range, after) ∧
      Spends entries.length 0 0 arena after ∧ readList after.params range = .ok entries := by
  refine ⟨_, { arena with params := arena.params ++ entries.toArray }, ?_, ?_,
    storedAll arena.params entries⟩
  · rw [storeParams, storeAll_ok small]
    rfl
  · refine ⟨?_, rfl, rfl, .refl _, .refl _, .refl _, .refl _, .append _ _⟩
    simp only [weight, Array.size_append, List.size_toArray]
    omega

end Arena

inductive Literal.Reads (interner : Interner) : Literal → Lox.Literal → Prop where
  | nil : Reads interner .nil .nil
  | bool : Reads interner (.bool value) (.bool value)
  | number : Reads interner (.number value) (.number value)
  | string (gave : interner.Gave name text) : Reads interner (.string name) (.string text)

theorem optional_imp {α β : Type} {first second : α → β → Prop} {here : Option α} {there : Option β}
    (related : Option.Rel first here there)
    (implies : ∀ {value other}, first value other → second value other) :
    Option.Rel second here there := by
  cases related with
  | none => exact .none
  | some holds => exact .some (implies holds)

/-- What stands at an index, with all that it refers to, is the tree. -/
inductive ExprAt (interner : Interner) (arena : Arena) : Nat → Expr Place → Prop where
  | literal (node : readNode arena.exprs index = .ok ⟨.literal value, place⟩)
      (reads : value.Reads interner other) : ExprAt interner arena index (.literal place other)
  | grouping {inner : Nat} (node : readNode arena.exprs index = .ok ⟨.grouping inner, place⟩)
      (within : ExprAt interner arena inner tree) : ExprAt interner arena index (.grouping place tree)
  | unary (node : readNode arena.exprs index = .ok ⟨.unary operator operand, place⟩)
      (within : ExprAt interner arena operand tree) :
      ExprAt interner arena index (.unary place operator tree)
  | binary (node : readNode arena.exprs index = .ok ⟨.binary operator left right, place⟩)
      (first : ExprAt interner arena left leftTree) (second : ExprAt interner arena right rightTree) :
      ExprAt interner arena index (.binary place operator leftTree rightTree)
  | logical (node : readNode arena.exprs index = .ok ⟨.logical operator left right, place⟩)
      (first : ExprAt interner arena left leftTree) (second : ExprAt interner arena right rightTree) :
      ExprAt interner arena index (.logical place operator leftTree rightTree)
  | name (node : readNode arena.exprs index = .ok ⟨.name name, place⟩) (gave : interner.Gave name text) :
      ExprAt interner arena index (.name place text)
  | assign (node : readNode arena.exprs index = .ok ⟨.assign name value, place⟩)
      (gave : interner.Gave name text) (within : ExprAt interner arena value tree) :
      ExprAt interner arena index (.assign place text tree)
  | call (node : readNode arena.exprs index = .ok ⟨.call callee range, place⟩)
      (within : ExprAt interner arena callee tree) (list : readList arena.exprLists range = .ok ids)
      (entries : List.Forall₂ (ExprAt interner arena) ids trees) :
      ExprAt interner arena index (.call place tree trees)

inductive StmtAt (interner : Interner) (arena : Arena) : Nat → Stmt Place → Prop where
  | expression (node : readNode arena.stmts index = .ok ⟨.expression expr, place⟩)
      (within : ExprAt interner arena expr tree) : StmtAt interner arena index (.expression place tree)
  | print (node : readNode arena.stmts index = .ok ⟨.print expr, place⟩)
      (within : ExprAt interner arena expr tree) : StmtAt interner arena index (.print place tree)
  | declare (node : readNode arena.stmts index = .ok ⟨.declare name initial, place⟩)
      (gave : interner.Gave name text) (within : Option.Rel (ExprAt interner arena) initial tree) :
      StmtAt interner arena index (.declare place text tree)
  | block (node : readNode arena.stmts index = .ok ⟨.block range, place⟩)
      (list : readList arena.stmtLists range = .ok ids)
      (entries : List.Forall₂ (StmtAt interner arena) ids trees) :
      StmtAt interner arena index (.block place trees)
  | ifThen (node : readNode arena.stmts index = .ok ⟨.branch condition body none, place⟩)
      (test : ExprAt interner arena condition tree) (first : StmtAt interner arena body bodyTree) :
      StmtAt interner arena index (.ifThen place tree bodyTree)
  | ifElse (node : readNode arena.stmts index = .ok ⟨.branch condition body (some other), place⟩)
      (test : ExprAt interner arena condition tree) (first : StmtAt interner arena body bodyTree)
      (second : StmtAt interner arena other otherTree) :
      StmtAt interner arena index (.ifElse place tree bodyTree otherTree)
  | whileLoop (node : readNode arena.stmts index = .ok ⟨.whileLoop condition body, place⟩)
      (test : ExprAt interner arena condition tree) (first : StmtAt interner arena body bodyTree) :
      StmtAt interner arena index (.whileLoop place tree bodyTree)
  | function (node : readNode arena.stmts index = .ok ⟨.function name params body, place⟩)
      (gave : interner.Gave name text) (names : readList arena.params params = .ok labels)
      (gaveAll : List.Forall₂ interner.Gave labels texts) (list : readList arena.stmtLists body = .ok ids)
      (entries : List.Forall₂ (StmtAt interner arena) ids trees) :
      StmtAt interner arena index (.function place text texts trees)
  | returnValue (node : readNode arena.stmts index = .ok ⟨.returnValue value, place⟩)
      (within : Option.Rel (ExprAt interner arena) value tree) :
      StmtAt interner arena index (.returnValue place tree)
  | breakLoop (node : readNode arena.stmts index = .ok ⟨.breakLoop, place⟩) :
      StmtAt interner arena index (.breakLoop place)
  | continueLoop (node : readNode arena.stmts index = .ok ⟨.continueLoop, place⟩) :
      StmtAt interner arena index (.continueLoop place)

section Growth

variable {before after : Interner} {first second : Arena}

theorem Literal.Reads.mono {value : Literal} {other : Lox.Literal} (reads : value.Reads before other)
    (grows : before.GrowsTo after) : value.Reads after other := by
  cases reads with
  | string gave => exact .string (gave.mono grows)
  | nil => exact .nil
  | bool => exact .bool
  | number => exact .number

mutual

theorem ExprAt.mono (grows : before.GrowsTo after) (further : first.Extends second)
    {tree : Expr Place} {index : Nat} (stands : ExprAt before first index tree) :
    ExprAt after second index tree := by
  cases stands with
  | literal node reads => exact .literal (further.exprs.node node) (reads.mono grows)
  | grouping node within =>
    exact .grouping (further.exprs.node node) (within.mono grows further)
  | unary node within => exact .unary (further.exprs.node node) (within.mono grows further)
  | binary node left right =>
    exact .binary (further.exprs.node node) (left.mono grows further) (right.mono grows further)
  | logical node left right =>
    exact .logical (further.exprs.node node) (left.mono grows further) (right.mono grows further)
  | name node gave => exact .name (further.exprs.node node) (gave.mono grows)
  | assign node gave within =>
    exact .assign (further.exprs.node node) (gave.mono grows) (within.mono grows further)
  | call node within list entries =>
    exact .call (further.exprs.node node) (within.mono grows further) (further.exprLists.list list)
      (exprsAt_mono grows further entries)

theorem exprsAt_mono (grows : before.GrowsTo after) (further : first.Extends second)
    {trees : List (Expr Place)} {ids : List Nat}
    (stand : List.Forall₂ (ExprAt before first) ids trees) :
    List.Forall₂ (ExprAt after second) ids trees := by
  cases stand with
  | nil => exact .nil
  | cons head tail => exact .cons (head.mono grows further) (exprsAt_mono grows further tail)

end

mutual

theorem StmtAt.mono (grows : before.GrowsTo after) (further : first.Extends second)
    {tree : Stmt Place} {index : Nat} (stands : StmtAt before first index tree) :
    StmtAt after second index tree := by
  cases stands with
  | expression node within =>
    exact .expression (further.stmts.node node) (within.mono grows further)
  | print node within => exact .print (further.stmts.node node) (within.mono grows further)
  | declare node gave within =>
    exact .declare (further.stmts.node node) (gave.mono grows)
      (optional_imp within (·.mono grows further))
  | block node list entries =>
    exact .block (further.stmts.node node) (further.stmtLists.list list)
      (stmtsAt_mono grows further entries)
  | ifThen node test body =>
    exact .ifThen (further.stmts.node node) (test.mono grows further) (body.mono grows further)
  | ifElse node test body other =>
    exact .ifElse (further.stmts.node node) (test.mono grows further) (body.mono grows further)
      (other.mono grows further)
  | whileLoop node test body =>
    exact .whileLoop (further.stmts.node node) (test.mono grows further) (body.mono grows further)
  | function node gave names gaveAll list entries =>
    exact .function (further.stmts.node node) (gave.mono grows) (further.params.list names)
      (gaveAll.imp fun _ _ gave => gave.mono grows) (further.stmtLists.list list)
      (stmtsAt_mono grows further entries)
  | returnValue node within =>
    exact .returnValue (further.stmts.node node) (optional_imp within (·.mono grows further))
  | breakLoop node => exact .breakLoop (further.stmts.node node)
  | continueLoop node => exact .continueLoop (further.stmts.node node)

theorem stmtsAt_mono (grows : before.GrowsTo after) (further : first.Extends second)
    {trees : List (Stmt Place)} {ids : List Nat}
    (stand : List.Forall₂ (StmtAt before first) ids trees) :
    List.Forall₂ (StmtAt after second) ids trees := by
  cases stand with
  | nil => exact .nil
  | cons head tail => exact .cons (head.mono grows further) (stmtsAt_mono grows further tail)

end

/-- A node that stands for a tree has its place. -/
theorem ExprAt.node {interner : Interner} {arena : Arena} {index : Nat} {tree : Expr Place}
    (stands : ExprAt interner arena index tree) :
    ∃ kind, readNode arena.exprs index = .ok ⟨kind, tree.place⟩ := by
  cases stands <;> exact ⟨_, by assumption⟩

theorem StmtAt.node {interner : Interner} {arena : Arena} {index : Nat} {tree : Stmt Place}
    (stands : StmtAt interner arena index tree) :
    ∃ kind, readNode arena.stmts index = .ok ⟨kind, tree.place⟩ := by
  cases stands <;> exact ⟨_, by assumption⟩

end Growth
end Lox.Flat
