import Lox.Proofs.Arena
import Lox.Proofs.FlatScan
import Lox.Parse.Statement

/-! The parser over flat memory. Its place is an index into the items of a source, what it builds goes
into an arena, and whatever it reads it reads by index. Otherwise it goes as the parser of trees. -/

namespace Lox.Flat

/-- What is parsed: the items of a source, and the names that they use. -/
structure Input where
  items : Array Item
  interner : Interner

structure State where
  index : Nat
  arena : Arena
  errors : Array ParseError

inductive Halt where
  | failed (error : ParseError)
  | exhausted
  | panicked (panic : Panic)

abbrev Parser := EStateM Halt State

/-- The kind of token, with nothing in those that carry something. -/
def Kind.shape : Kind → TokenKind
  | .symbol sign => .symbol sign
  | .identifier _ => .identifier ""
  | .string _ => .string ""
  | .number _ => .number 0
  | .keyword word => .keyword word
  | .eof => .eof

def Item.isEof (item : Item) : Bool :=
  match item.kind with
  | .eof => true
  | _ => false

def Item.leaf? (item : Item) : Option ExprKind :=
  match item.kind with
  | .keyword .falseWord => some (.literal (.bool false))
  | .keyword .trueWord => some (.literal (.bool true))
  | .keyword .nilWord => some (.literal .nil)
  | .number value => some (.literal (.number value))
  | .string contents => some (.literal (.string contents))
  | .identifier name => some (.name name)
  | _ => none

def Item.place (item : Item) : Place := ⟨item.line, item.span⟩

def jointKind (left right : Nat) : Joint → ExprKind
  | .logical operator => .logical operator left right
  | .binary operator => .binary operator left right

namespace Input

variable (input : Input)

def itemAt (index : Nat) : Checked Item := demand .token input.items[index]?

/-- The error that something is wrong with an item. -/
def errorAt (item : Item) (code : Code) (message : String) : Checked ParseError := do
  let lexeme ← if item.isEof then pure none else some <$> lookup input.interner item.lexeme
  return ⟨code, message, item.line, item.span, lexeme⟩

/-- The nearest boundary from an index on. -/
def skip (index : Nat) : Checked Nat :=
  match found : input.items[index]? with
  | none => .error .token
  | some item =>
    if item.isEof then .ok index
    else do
      let before ← input.itemAt (index - 1)
      if before.kind.shape.same (.symbol .semicolon) ||
          Cursor.declarationStart.contains item.kind.shape then return index
      else skip (index + 1)
termination_by input.items.size - index
decreasing_by
  have within := (Array.getElem?_eq_some_iff.mp found).1
  omega

end Input

namespace Parser

/-- An access that ends the program if there is nothing to reach for. -/
def reach {α : Type} (result : Checked α) : Parser α := fun state =>
  match result with
  | .ok value => .ok value state
  | .error panic => .error (.panicked panic) state

def report (error : ParseError) : Parser Unit := fun state =>
  .ok () { state with errors := state.errors.push error }

def readExpr (index : Nat) : Parser ExprNode := fun state =>
  reach (readNode state.arena.exprs index) state

def readStmt (index : Nat) : Parser StmtNode := fun state =>
  reach (readNode state.arena.stmts index) state

/-- A change to the arena. -/
def build {α : Type} (change : Arena → Checked (α × Arena)) : Parser α := fun state =>
  match change state.arena with
  | .ok (value, arena) => .ok value { state with arena }
  | .error panic => .error (.panicked panic) state

def storeExpr (node : ExprNode) : Parser Nat := build (·.storeExpr node)

def storeStmt (node : StmtNode) : Parser Nat := build (·.storeStmt node)

def storeExprs (entries : List Nat) : Parser Range := build (·.storeExprs entries)

def storeStmts (entries : List Nat) : Parser Range := build (·.storeStmts entries)

def storeParams (entries : List Name) : Parser Range := build (·.storeParams entries)

variable (input : Input)

def current : Parser Item := fun state => reach (input.itemAt state.index) state

/-- The item read last, or the first one before any is. -/
def previous : Parser Item := fun state => reach (input.itemAt (state.index - 1)) state

def atEnd : Parser Bool := return (← current input).isEof

def check (kind : TokenKind) : Parser Bool := return (← current input).kind.shape.same kind

/-- Steps to the next item, and stays at the end of the input. -/
def advance : Parser Item := do
  let item ← current input
  if item.isEof then return item
  else
    modify fun state => { state with index := state.index + 1 }
    return item

def eat (kind : TokenKind) : Parser Bool := do
  if ← check input kind then
    let _ ← advance input
    return true
  else return false

def failHere {α : Type} (code : Code) (message : String) : Parser α := do
  let item ← current input
  throw (.failed (← reach (input.errorAt item code message)))

def reportHere (code : Code) (message : String) : Parser Unit := do
  let item ← current input
  report (← reach (input.errorAt item code message))

def expect (kind : TokenKind) (message : String) : Parser Item := do
  if ← check input kind then advance input
  else failHere input .expectedToken message

def expectName (message : String) : Parser Name := do
  match (← current input).kind with
  | .identifier name =>
    let _ ← advance input
    return name
  | _ => failHere input .expectedIdentifier message

def spanFrom (start : Span) : Parser Span := return start.merge (← previous input).span

/-- A statement that begins with an item and ends with the last one read. -/
def finish (keyword : Item) (kind : StmtKind) : Parser Nat := do
  let span ← spanFrom input keyword.span
  storeStmt ⟨kind, ⟨keyword.line, span⟩⟩

/-- The index of the nearest boundary. -/
def boundary : Parser Nat := fun state => reach (input.skip state.index) state

/-- Steps past an item that is in error to the nearest boundary behind it. -/
def synchronize : Parser Unit := do
  let _ ← advance input
  let index ← boundary input
  modify fun state => { state with index }

def recover (body : Parser Nat) : Parser (Option Nat) := fun state =>
  match body state with
  | .ok value state => .ok (some value) state
  | .error (.failed error) state => (do
      report error
      synchronize input
      return none : Parser (Option Nat)) state
  | .error halt state => .error halt state

mutual

def expression : Nat → Parser Nat
  | 0 => throw .exhausted
  | fuel + 1 => do
    let target ← chain fuel Level.all
    let equals ← current input
    if ← eat input (.symbol .equal) then
      let value ← expression fuel
      let node ← readExpr target
      match node.kind with
      | .name label =>
        let last ← readExpr value
        storeExpr ⟨.assign label value, ⟨node.place.line, node.place.span.merge last.place.span⟩⟩
      | _ =>
        report (← reach (input.errorAt equals .invalidTarget "invalid assignment target"))
        return value
    else
      return target

def chain : Nat → List Level → Parser Nat
  | 0, _ => throw .exhausted
  | fuel + 1, [] => unary fuel
  | fuel + 1, level :: tighter => do
    let left ← chain fuel tighter
    chainRest fuel level tighter left

def chainRest : Nat → Level → List Level → Nat → Parser Nat
  | 0, _, _, _ => throw .exhausted
  | fuel + 1, level, tighter, left => do
    let item ← current input
    match level.joint? item.kind.shape with
    | none => return left
    | some joint =>
      let _ ← advance input
      let right ← chain fuel tighter
      let first ← readExpr left
      let second ← readExpr right
      let place : Place := ⟨item.line, first.place.span.merge second.place.span⟩
      let whole ← storeExpr ⟨jointKind left right joint, place⟩
      chainRest fuel level tighter whole

def unary : Nat → Parser Nat
  | 0 => throw .exhausted
  | fuel + 1 => do
    let item ← current input
    match item.kind.shape.unaryOperator? with
    | some operator =>
      let _ ← advance input
      let operand ← unary fuel
      let node ← readExpr operand
      storeExpr ⟨.unary operator operand, ⟨item.line, item.span.merge node.place.span⟩⟩
    | none =>
      let callee ← primary fuel
      calls fuel callee

def calls : Nat → Nat → Parser Nat
  | 0, _ => throw .exhausted
  | fuel + 1, callee => do
    if ← eat input (.symbol .leftParen) then
      let ids ← if ← check input (.symbol .rightParen) then pure [] else arguments fuel #[]
      let close ← expect input (.symbol .rightParen) "expected ')' after arguments"
      let range ← storeExprs ids
      let node ← readExpr callee
      let whole ← storeExpr ⟨.call callee range, ⟨close.line, node.place.span.merge close.span⟩⟩
      calls fuel whole
    else
      return callee

def arguments : Nat → Array Nat → Parser (List Nat)
  | 0, _ => throw .exhausted
  | fuel + 1, before => do
    if Lox.Parser.maxEntries ≤ before.size then
      reportHere input .tooManyEntries "can't have more than 255 arguments"
    let argument ← expression fuel
    if ← eat input (.symbol .comma) then arguments fuel (before.push argument)
    else return (before.push argument).toList

def primary : Nat → Parser Nat
  | 0 => throw .exhausted
  | fuel + 1 => do
    let item ← current input
    if ← eat input (.symbol .leftParen) then
      let inner ← expression fuel
      let close ← expect input (.symbol .rightParen) "expected enclosing ')' after expression"
      storeExpr ⟨.grouping inner, ⟨item.line, item.span.merge close.span⟩⟩
    else
      match item.leaf? with
      | some leaf =>
        let _ ← advance input
        storeExpr ⟨leaf, item.place⟩
      | none => failHere input .expectedExpression "expected expression"

end

def declareRest (fuel : Nat) (keyword : Item) : Parser Nat := do
  let name ← expectName input "expected variable name"
  let initial ← if ← eat input (.symbol .equal) then some <$> expression input fuel else pure none
  let _ ← expect input (.symbol .semicolon) "expected ';' after variable declaration"
  finish input keyword (.declare name initial)

def printRest (fuel : Nat) (keyword : Item) : Parser Nat := do
  let value ← expression input fuel
  let _ ← expect input (.symbol .semicolon) "expected ';' after value"
  finish input keyword (.print value)

def returnRest (fuel : Nat) (keyword : Item) : Parser Nat := do
  let value ← if ← check input (.symbol .semicolon) then pure none
    else some <$> expression input fuel
  let _ ← expect input (.symbol .semicolon) "expected ';' after return value"
  finish input keyword (.returnValue value)

def breakRest (keyword : Item) : Parser Nat := do
  let _ ← expect input (.symbol .semicolon) "expected ';' after 'break'"
  finish input keyword .breakLoop

def continueRest (keyword : Item) : Parser Nat := do
  let _ ← expect input (.symbol .semicolon) "expected ';' after 'continue'"
  finish input keyword .continueLoop

def expressionStatement (fuel : Nat) : Parser Nat := do
  let expr ← expression input fuel
  let node ← readExpr expr
  let _ ← expect input (.symbol .semicolon) "expected ';' after expression"
  let span ← spanFrom input node.place.span
  storeStmt ⟨.expression expr, ⟨node.place.line, span⟩⟩

def parameters : Nat → Array Name → Parser (List Name)
  | 0, _ => throw .exhausted
  | fuel + 1, before => do
    if Lox.Parser.maxEntries ≤ before.size then
      reportHere input .tooManyEntries "can't have more than 255 parameters"
    let name ← expectName input "expected parameter name"
    if ← eat input (.symbol .comma) then parameters fuel (before.push name)
    else return (before.push name).toList

def firstClause (fuel : Nat) : Parser (Option Nat) := do
  let item ← current input
  if ← eat input (.symbol .semicolon) then return none
  else if ← eat input (.keyword .varWord) then some <$> declareRest input fuel item
  else some <$> expressionStatement input fuel

/-- The condition of a `for` loop, if it has one, and its semicolon. -/
def conditionClause (fuel : Nat) : Parser (Option Nat × Item) := do
  let condition ← if ← check input (.symbol .semicolon) then pure none
    else some <$> expression input fuel
  let close ← expect input (.symbol .semicolon) "expected ';' after for condition"
  return (condition, close)

def lastClause (fuel : Nat) : Parser (Option Nat) := do
  let last ← if ← check input (.symbol .rightParen) then pure none
    else some <$> expression input fuel
  let _ ← expect input (.symbol .rightParen) "expected ')' after for clauses"
  return last

/-- The step behind the body of a `for` loop. -/
def storeStep : Option Nat → Parser (List Nat)
  | none => return []
  | some expr => do
    let node ← readExpr expr
    return [← storeStmt ⟨.expression expr, node.place⟩]

def storeCondition : Option Nat × Item → Parser Nat
  | (some condition, _) => return condition
  | (none, close) => storeExpr ⟨.literal (.bool true), close.place⟩

/-- The statements that a `for` loop stands for, the innermost first. -/
def storeLoop (keyword : Item) (first : Option Nat) (condition : Option Nat × Item)
    (last : Option Nat) (body : Nat) : Parser Nat := do
  let node ← readStmt body
  let bodySpan ← spanFrom input node.place.span
  let step ← storeStep last
  let entries ← storeStmts (body :: step)
  let round ← storeStmt ⟨.block entries, ⟨keyword.line, bodySpan⟩⟩
  let condition ← storeCondition condition
  let loop ← finish input keyword (.whileLoop condition round)
  let outer ← storeStmts (first.toList ++ [loop])
  finish input keyword (.block outer)

mutual

def declaration : Nat → Parser (Option Nat)
  | 0 => throw .exhausted
  | fuel + 1 => recover input do
    let keyword ← current input
    if ← eat input (.keyword .varWord) then declareRest input fuel keyword
    else if ← eat input (.keyword .funWord) then functionRest fuel keyword
    else statement fuel

def functionRest : Nat → Item → Parser Nat
  | 0, _ => throw .exhausted
  | fuel + 1, keyword => do
    let name ← expectName input "expected function name"
    let _ ← expect input (.symbol .leftParen) "expected '(' after function name"
    let params ← if ← check input (.symbol .rightParen) then pure []
      else parameters input fuel #[]
    let _ ← expect input (.symbol .rightParen) "expected ')' after parameters"
    let _ ← expect input (.symbol .leftBrace) "expected '\x7b' before function body"
    let body ← blockRest fuel #[]
    let params ← storeParams params
    let body ← storeStmts body
    finish input keyword (.function name params body)

def statement : Nat → Parser Nat
  | 0 => throw .exhausted
  | fuel + 1 => do
    let keyword ← current input
    match keyword.kind with
    | .keyword .forWord =>
      let _ ← advance input
      forRest fuel keyword
    | .keyword .ifWord =>
      let _ ← advance input
      ifRest fuel keyword
    | .keyword .printWord =>
      let _ ← advance input
      printRest input fuel keyword
    | .keyword .returnWord =>
      let _ ← advance input
      returnRest input fuel keyword
    | .keyword .whileWord =>
      let _ ← advance input
      whileRest fuel keyword
    | .keyword .breakWord =>
      let _ ← advance input
      breakRest input keyword
    | .keyword .continueWord =>
      let _ ← advance input
      continueRest input keyword
    | .symbol .leftBrace =>
      let _ ← advance input
      let body ← blockRest fuel #[]
      let range ← storeStmts body
      finish input keyword (.block range)
    | _ => expressionStatement input fuel

def blockRest : Nat → Array Nat → Parser (List Nat)
  | 0, _ => throw .exhausted
  | fuel + 1, before => do
    if (← check input (.symbol .rightBrace)) || (← atEnd input) then
      let _ ← expect input (.symbol .rightBrace) "expected '\x7d' after block"
      return before.toList
    else
      match ← declaration fuel with
      | some stmt => blockRest fuel (before.push stmt)
      | none => blockRest fuel before

def ifRest : Nat → Item → Parser Nat
  | 0, _ => throw .exhausted
  | fuel + 1, keyword => do
    let _ ← expect input (.symbol .leftParen) "expected '(' after 'if'"
    let condition ← expression input fuel
    let _ ← expect input (.symbol .rightParen) "expected ')' after if condition"
    let body ← statement fuel
    if ← eat input (.keyword .elseWord) then
      let other ← statement fuel
      finish input keyword (.branch condition body (some other))
    else
      finish input keyword (.branch condition body none)

def whileRest : Nat → Item → Parser Nat
  | 0, _ => throw .exhausted
  | fuel + 1, keyword => do
    let _ ← expect input (.symbol .leftParen) "expected '(' after while"
    let condition ← expression input fuel
    let _ ← expect input (.symbol .rightParen) "expected ')' after while condition"
    let body ← statement fuel
    finish input keyword (.whileLoop condition body)

def forRest : Nat → Item → Parser Nat
  | 0, _ => throw .exhausted
  | fuel + 1, keyword => do
    let _ ← expect input (.symbol .leftParen) "expected '(' after 'for'"
    let first ← firstClause input fuel
    let condition ← conditionClause input fuel
    let last ← lastClause input fuel
    let body ← statement fuel
    storeLoop input keyword first condition last body

end

/-- The statements up to the end of the input, which go into the last list. -/
def program : Nat → Array Nat → Parser Range
  | 0, _ => throw .exhausted
  | fuel + 1, before => do
    if ← atEnd input then storeStmts before.toList
    else
      match ← declaration input fuel with
      | some stmt => program fuel (before.push stmt)
      | none => program fuel before

end Parser
end Lox.Flat
