import Lox.Parse.Expression

/-!
Parsing declarations and statements. Errors are caught where a declaration is
read, at the top level and in blocks, so that each stretch of bad tokens costs
one declaration.
-/

namespace Lox

/-- What a `for` loop stands for: a block with its first clause and a `while`
loop, whose body is a block with the body and the last clause. -/
def Stmt.forLoop (place : Place) (first : Option (Stmt Place)) (condition : Expr Place)
    (last : Option (Expr Place)) (bodySpan : Span) (body : Stmt Place) : Stmt Place :=
  let step := last.toList.map fun expr => Stmt.expression expr.place expr
  let round := Stmt.block ⟨place.line, bodySpan⟩ (body :: step)
  .block place (first.toList ++ [.whileLoop place condition round])

namespace Parser

/-- A `var` declaration behind its keyword. -/
def declareRest (fuel : Nat) (keyword : Token) : Parser (Stmt Place) := do
  let name ← expectName "expected variable name"
  let initial ← if ← eat (.symbol .equal) then some <$> expression fuel else pure none
  let _ ← expect (.symbol .semicolon) "expected ';' after variable declaration"
  return .declare (← placeFrom keyword) name initial

def printRest (fuel : Nat) (keyword : Token) : Parser (Stmt Place) := do
  let value ← expression fuel
  let _ ← expect (.symbol .semicolon) "expected ';' after value"
  return .print (← placeFrom keyword) value

def returnRest (fuel : Nat) (keyword : Token) : Parser (Stmt Place) := do
  let value ← if ← check (.symbol .semicolon) then pure none else some <$> expression fuel
  let _ ← expect (.symbol .semicolon) "expected ';' after return value"
  return .returnValue (← placeFrom keyword) value

def breakRest (keyword : Token) : Parser (Stmt Place) := do
  let _ ← expect (.symbol .semicolon) "expected ';' after 'break'"
  return .breakLoop (← placeFrom keyword)

def continueRest (keyword : Token) : Parser (Stmt Place) := do
  let _ ← expect (.symbol .semicolon) "expected ';' after 'continue'"
  return .continueLoop (← placeFrom keyword)

def expressionStatement (fuel : Nat) : Parser (Stmt Place) := do
  let expr ← expression fuel
  let _ ← expect (.symbol .semicolon) "expected ';' after expression"
  return .expression ⟨expr.place.line, ← spanFrom expr.place.span⟩ expr

/-- The parameters of a function, of which there is at least one more. -/
def parameters : Nat → Array String → Parser (List String)
  | 0, _ => throw .exhausted
  | fuel + 1, before => do
    if maxEntries ≤ before.size then
      reportHere .tooManyEntries "can't have more than 255 parameters"
    let name ← expectName "expected parameter name"
    if ← eat (.symbol .comma) then parameters fuel (before.push name)
    else return (before.push name).toList

/-- The first clause of a `for` loop with its semicolon. -/
def firstClause (fuel : Nat) : Parser (Option (Stmt Place)) := do
  let token ← current
  if ← eat (.symbol .semicolon) then return none
  else if ← eat (.keyword .varWord) then some <$> declareRest fuel token
  else some <$> expressionStatement fuel

/-- The condition of a `for` loop with its semicolon. A missing condition always
holds. -/
def conditionClause (fuel : Nat) : Parser (Expr Place) := do
  let condition ← if ← check (.symbol .semicolon) then pure none else some <$> expression fuel
  let close ← expect (.symbol .semicolon) "expected ';' after for condition"
  return condition.getD (.literal ⟨close.line, close.span⟩ (.bool true))

/-- The last clause of a `for` loop with the closing parenthesis. -/
def lastClause (fuel : Nat) : Parser (Option (Expr Place)) := do
  let last ← if ← check (.symbol .rightParen) then pure none else some <$> expression fuel
  let _ ← expect (.symbol .rightParen) "expected ')' after for clauses"
  return last

mutual

/-- Nothing if the declaration is in error. -/
def declaration : Nat → Parser (Option (Stmt Place))
  | 0 => throw .exhausted
  | fuel + 1 => recover do
    let keyword ← current
    if ← eat (.keyword .varWord) then declareRest fuel keyword
    else if ← eat (.keyword .funWord) then functionRest fuel keyword
    else statement fuel

/-- A function declaration behind its keyword. -/
def functionRest : Nat → Token → Parser (Stmt Place)
  | 0, _ => throw .exhausted
  | fuel + 1, keyword => do
    let name ← expectName "expected function name"
    let _ ← expect (.symbol .leftParen) "expected '(' after function name"
    let params ← if ← check (.symbol .rightParen) then pure [] else parameters fuel #[]
    let _ ← expect (.symbol .rightParen) "expected ')' after parameters"
    let _ ← expect (.symbol .leftBrace) "expected '\x7b' before function body"
    let body ← blockRest fuel #[]
    return .function (← placeFrom keyword) name params body

def statement : Nat → Parser (Stmt Place)
  | 0 => throw .exhausted
  | fuel + 1 => do
    let keyword ← current
    match keyword.kind with
    | .keyword .forWord =>
      advance
      forRest fuel keyword
    | .keyword .ifWord =>
      advance
      ifRest fuel keyword
    | .keyword .printWord =>
      advance
      printRest fuel keyword
    | .keyword .returnWord =>
      advance
      returnRest fuel keyword
    | .keyword .whileWord =>
      advance
      whileRest fuel keyword
    | .keyword .breakWord =>
      advance
      breakRest keyword
    | .keyword .continueWord =>
      advance
      continueRest keyword
    | .symbol .leftBrace =>
      advance
      let body ← blockRest fuel #[]
      return .block (← placeFrom keyword) body
    | _ => expressionStatement fuel

/-- The declarations of a block, after those before, with the closing brace. -/
def blockRest : Nat → Array (Stmt Place) → Parser (List (Stmt Place))
  | 0, _ => throw .exhausted
  | fuel + 1, before => do
    if (← check (.symbol .rightBrace)) || (← atEnd) then
      let _ ← expect (.symbol .rightBrace) "expected '\x7d' after block"
      return before.toList
    else
      match ← declaration fuel with
      | some stmt => blockRest fuel (before.push stmt)
      | none => blockRest fuel before

/-- An `else` belongs to the nearest `if`. -/
def ifRest : Nat → Token → Parser (Stmt Place)
  | 0, _ => throw .exhausted
  | fuel + 1, keyword => do
    let _ ← expect (.symbol .leftParen) "expected '(' after 'if'"
    let condition ← expression fuel
    let _ ← expect (.symbol .rightParen) "expected ')' after if condition"
    let body ← statement fuel
    if ← eat (.keyword .elseWord) then
      let other ← statement fuel
      return .ifElse (← placeFrom keyword) condition body other
    else
      return .ifThen (← placeFrom keyword) condition body

def whileRest : Nat → Token → Parser (Stmt Place)
  | 0, _ => throw .exhausted
  | fuel + 1, keyword => do
    let _ ← expect (.symbol .leftParen) "expected '(' after while"
    let condition ← expression fuel
    let _ ← expect (.symbol .rightParen) "expected ')' after while condition"
    let body ← statement fuel
    return .whileLoop (← placeFrom keyword) condition body

def forRest : Nat → Token → Parser (Stmt Place)
  | 0, _ => throw .exhausted
  | fuel + 1, keyword => do
    let _ ← expect (.symbol .leftParen) "expected '(' after 'for'"
    let first ← firstClause fuel
    let condition ← conditionClause fuel
    let last ← lastClause fuel
    let body ← statement fuel
    let bodySpan ← spanFrom body.place.span
    return .forLoop (← placeFrom keyword) first condition last bodySpan body

end

/-- The declarations up to the end of the input, after those before. -/
def program : Nat → Array (Stmt Place) → Parser Program
  | 0, _ => throw .exhausted
  | fuel + 1, before => do
    if ← atEnd then return before.toList
    else
      match ← declaration fuel with
      | some stmt => program fuel (before.push stmt)
      | none => program fuel before

end Parser

/-- A program with what is wrong with it. Declarations in error are left out of
the program. -/
structure Parsed where
  program : Program
  errors : List ParseError

namespace Parsed

/-- Between two tokens the grammar nests fewer than sixteen calls, so this
budget is never used up. -/
def budget (tokens : List Token) : Nat := 16 * (tokens.length + 2)

def ofTokens (tokens : List Token) : Parsed :=
  match Parser.program (budget tokens) #[] ⟨.ofTokens tokens, #[]⟩ with
  | .ok program progress => ⟨program, progress.errors.toList⟩
  | .error _ progress => ⟨[], progress.errors.toList⟩

end Parsed
end Lox
