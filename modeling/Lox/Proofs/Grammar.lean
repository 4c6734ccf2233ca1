import Lox.Parse.Statement

/-! The grammar of the language, as derivations of bare trees from kinds of tokens. It knows nothing
of cursors, budgets or errors. -/

namespace Lox.Grammar

/-- The operators of each level. -/
inductive Operator : Level → TokenKind → Joint → Prop where
  | or : Operator .or (.keyword .orWord) (.logical .or)
  | and : Operator .and (.keyword .andWord) (.logical .and)
  | notEqual : Operator .equality (.symbol .bangEqual) (.binary .notEqual)
  | equal : Operator .equality (.symbol .equalEqual) (.binary .equal)
  | greater : Operator .comparison (.symbol .greater) (.binary .greater)
  | greaterEqual : Operator .comparison (.symbol .greaterEqual) (.binary .greaterEqual)
  | less : Operator .comparison (.symbol .less) (.binary .less)
  | lessEqual : Operator .comparison (.symbol .lessEqual) (.binary .lessEqual)
  | add : Operator .term (.symbol .plus) (.binary .add)
  | subtract : Operator .term (.symbol .minus) (.binary .subtract)
  | multiply : Operator .factor (.symbol .star) (.binary .multiply)
  | divide : Operator .factor (.symbol .slash) (.binary .divide)

/-- The levels of operators, from the loosest to the tightest. -/
def allLevels : List Level := [.or, .and, .equality, .comparison, .term, .factor]

inductive Prefix : TokenKind → UnaryOperator → Prop where
  | not : Prefix (.symbol .bang) .not
  | negate : Prefix (.symbol .minus) .negate

/-- The tokens that are expressions by themselves. -/
inductive Leaf : TokenKind → Expr Unit → Prop where
  | number : Leaf (.number value) (.literal () (.number value))
  | string : Leaf (.string contents) (.literal () (.string contents))
  | true : Leaf (.keyword .trueWord) (.literal () (.bool true))
  | false : Leaf (.keyword .falseWord) (.literal () (.bool false))
  | nil : Leaf (.keyword .nilWord) (.literal () .nil)
  | name : Leaf (.identifier name) (.name () name)

def joined (left right : Expr Unit) : Joint → Expr Unit
  | .logical operator => .logical () operator left right
  | .binary operator => .binary () operator left right

/-- How many arguments or parameters there may be. -/
def entries : Nat := 255

mutual

inductive Expression : List TokenKind → Expr Unit → Prop where
  | assign (value : Expression phrase tree) :
      Expression (.identifier name :: .symbol .equal :: phrase) (.assign () name tree)
  | operation (operation : Operation allLevels phrase tree) : Expression phrase tree

/-- Operands that operators of the given levels join. What stands to the left of an operator may
be joined by operators of its level, what stands to its right only by tighter ones. -/
inductive Operation : List Level → List TokenKind → Expr Unit → Prop where
  | single (operation : Operation tighter phrase tree) : Operation (level :: tighter) phrase tree
  | join (left : Operation (level :: tighter) front leftTree)
      (operator : Operator level kind joint) (right : Operation tighter back rightTree) :
      Operation (level :: tighter) (front ++ kind :: back) (joined leftTree rightTree joint)
  | operand (operand : Unary phrase tree) : Operation [] phrase tree

inductive Unary : List TokenKind → Expr Unit → Prop where
  | prefixed (operator : Prefix kind sign) (operand : Unary phrase tree) :
      Unary (kind :: phrase) (.unary () sign tree)
  | call (call : Call phrase tree) : Unary phrase tree

inductive Call : List TokenKind → Expr Unit → Prop where
  | primary (primary : Primary phrase tree) : Call phrase tree
  | call (callee : Call front tree) (arguments : Arguments back trees)
      (few : trees.length ≤ entries) :
      Call (front ++ .symbol .leftParen :: (back ++ [.symbol .rightParen])) (.call () tree trees)

inductive Arguments : List TokenKind → List (Expr Unit) → Prop where
  | none : Arguments [] []
  | some (list : ArgumentList phrase trees) : Arguments phrase trees

inductive ArgumentList : List TokenKind → List (Expr Unit) → Prop where
  | last (argument : Expression phrase tree) : ArgumentList phrase [tree]
  | more (argument : Expression front tree) (further : ArgumentList back trees) :
      ArgumentList (front ++ .symbol .comma :: back) (tree :: trees)

inductive Primary : List TokenKind → Expr Unit → Prop where
  | leaf (leaf : Leaf kind tree) : Primary [kind] tree
  | grouping (inner : Expression phrase tree) :
      Primary (.symbol .leftParen :: (phrase ++ [.symbol .rightParen])) (.grouping () tree)

end

/-- An expression that may be left out. -/
inductive Optional : List TokenKind → Option (Expr Unit) → Prop where
  | none : Optional [] none
  | some (expr : Expression phrase tree) : Optional phrase (some tree)

/-- The value a variable is declared with. -/
inductive Initial : List TokenKind → Option (Expr Unit) → Prop where
  | none : Initial [] none
  | some (expr : Expression phrase tree) : Initial (.symbol .equal :: phrase) (some tree)

inductive Variable : List TokenKind → Stmt Unit → Prop where
  | declare (initial : Initial phrase tree) :
      Variable (.keyword .varWord :: .identifier name :: (phrase ++ [.symbol .semicolon]))
        (.declare () name tree)

inductive NameList : List TokenKind → List String → Prop where
  | last : NameList [.identifier name] [name]
  | more (further : NameList phrase names) :
      NameList (.identifier name :: .symbol .comma :: phrase) (name :: names)

inductive Parameters : List TokenKind → List String → Prop where
  | none : Parameters [] []
  | some (list : NameList phrase names) : Parameters phrase names

/-- The first clause of a `for` loop, with its semicolon. -/
inductive FirstClause : List TokenKind → Option (Stmt Unit) → Prop where
  | none : FirstClause [.symbol .semicolon] none
  | declare (declared : Variable phrase tree) : FirstClause phrase (some tree)
  | expression (expr : Expression phrase tree) :
      FirstClause (phrase ++ [.symbol .semicolon]) (some (.expression () tree))

/-- What a `for` loop stands for: a block around a `while` loop whose body ends with the last
clause. A condition left out always holds. -/
def forLoop (first : Option (Stmt Unit)) (condition last : Option (Expr Unit)) (body : Stmt Unit) :
    Stmt Unit :=
  .block () (first.toList ++ [.whileLoop () (condition.getD (.literal () (.bool true)))
    (.block () (body :: (last.map (Stmt.expression ())).toList))])

mutual

/-- A statement is open when an `else` behind it would belong to it. So no open statement stands
between a condition and its `else`. -/
inductive Statement : Bool → List TokenKind → Stmt Unit → Prop where
  | expression (expr : Expression phrase tree) :
      Statement false (phrase ++ [.symbol .semicolon]) (.expression () tree)
  | print (expr : Expression phrase tree) :
      Statement false (.keyword .printWord :: (phrase ++ [.symbol .semicolon])) (.print () tree)
  | ifThen (condition : Expression front tree) (body : Statement ending back bodyTree) :
      Statement true (.keyword .ifWord :: .symbol .leftParen ::
        (front ++ .symbol .rightParen :: back)) (.ifThen () tree bodyTree)
  | ifElse (condition : Expression front tree) (body : Statement false middle bodyTree)
      (other : Statement ending back otherTree) :
      Statement ending (.keyword .ifWord :: .symbol .leftParen ::
        (front ++ .symbol .rightParen :: (middle ++ .keyword .elseWord :: back)))
        (.ifElse () tree bodyTree otherTree)
  | whileLoop (condition : Expression front tree) (body : Statement ending back bodyTree) :
      Statement ending (.keyword .whileWord :: .symbol .leftParen ::
        (front ++ .symbol .rightParen :: back)) (.whileLoop () tree bodyTree)
  | forLoop (first : FirstClause front firstTree) (condition : Optional middle conditionTree)
      (last : Optional back lastTree) (body : Statement ending rest bodyTree) :
      Statement ending (.keyword .forWord :: .symbol .leftParen :: (front ++ (middle ++
        .symbol .semicolon :: (back ++ .symbol .rightParen :: rest))))
        (forLoop firstTree conditionTree lastTree bodyTree)
  | returnValue (value : Optional phrase tree) :
      Statement false (.keyword .returnWord :: (phrase ++ [.symbol .semicolon]))
        (.returnValue () tree)
  | breakLoop : Statement false [.keyword .breakWord, .symbol .semicolon] (.breakLoop ())
  | continueLoop : Statement false [.keyword .continueWord, .symbol .semicolon] (.continueLoop ())
  | block (body : Declarations phrase trees) :
      Statement false (.symbol .leftBrace :: (phrase ++ [.symbol .rightBrace])) (.block () trees)

inductive Declaration : List TokenKind → Stmt Unit → Prop where
  | declare (declared : Variable phrase tree) : Declaration phrase tree
  | function (params : Parameters front names) (few : names.length ≤ entries)
      (body : Declarations back trees) :
      Declaration (.keyword .funWord :: .identifier name :: .symbol .leftParen ::
        (front ++ .symbol .rightParen :: .symbol .leftBrace :: (back ++ [.symbol .rightBrace])))
        (.function () name names trees)
  | statement (stmt : Statement ending phrase tree) : Declaration phrase tree

/-- Declarations one after another. -/
inductive Declarations : List TokenKind → List (Stmt Unit) → Prop where
  | nil : Declarations [] []
  | cons (first : Declaration front tree) (further : Declarations back trees) :
      Declarations (front ++ back) (tree :: trees)

end

/-- The tokens of a whole program, the end of the input last. -/
inductive Derives : List TokenKind → List (Stmt Unit) → Prop where
  | program (body : Declarations phrase trees) : Derives (phrase ++ [.eof]) trees

end Lox.Grammar
