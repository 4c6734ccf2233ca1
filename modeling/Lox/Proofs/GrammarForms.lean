import Mathlib.Computability.Language
import Lox.Proofs.GrammarStarts

/-! The grammar as the language's description writes it: rules of tokens, symbols, alternatives,
parts that may be left out and parts that repeat. It derives kinds of tokens without trees, and does
not count arguments or parameters. -/

namespace Lox.Grammar

inductive Nonterminal where
  | program | declaration | varDeclaration | funDeclaration | params
  | statement | exprStatement | printStatement | ifStatement | whileStatement | forStatement
  | returnStatement | breakStatement | continueStatement | block
  | expression | operation (levels : List Level) | unary | call | args | primary

/-- Some token is allowed wherever a form asks for one, so that every form derives something. -/
inductive Form where
  | nothing
  | one (kinds : TokenKind → Prop) (some : ∃ kind, kinds kind)
  | symbol (symbol : Nonterminal)
  | next (first second : Form)
  | either (first second : Form)
  | maybe (form : Form)
  | many (form : Form)

namespace Form

def sign (sign : Symbol) : Form := .one (· = .symbol sign) ⟨_, rfl⟩

def word (word : Keyword) : Form := .one (· = .keyword word) ⟨_, rfl⟩

def name : Form := .one (fun kind => ∃ name, kind = .identifier name) ⟨_, "", rfl⟩

def operator (level : Level) : Form :=
  .one (fun kind => ∃ joint, Operator level kind joint) <| by
    cases level
    · exact ⟨_, _, .or⟩
    · exact ⟨_, _, .and⟩
    · exact ⟨_, _, .equal⟩
    · exact ⟨_, _, .less⟩
    · exact ⟨_, _, .add⟩
    · exact ⟨_, _, .divide⟩

def unaryOperator : Form := .one (fun kind => ∃ sign, Prefix kind sign) ⟨_, _, .not⟩

def leaf : Form := .one (fun kind => ∃ tree, Leaf kind tree) ⟨_, _, .nil⟩

def inOrder : List Form → Form
  | [] => nothing
  | first :: rest => .next first (inOrder rest)

def oneOf (first : Form) : List Form → Form
  | [] => first
  | second :: rest => .either first (oneOf second rest)

end Form

open Form in
/-- What a symbol stands for. -/
def Nonterminal.rule : Nonterminal → Form
  | program => inOrder [.many (.symbol declaration), .one (· = .eof) ⟨_, rfl⟩]
  | declaration => oneOf (.symbol varDeclaration) [.symbol funDeclaration, .symbol statement]
  | varDeclaration => inOrder [word .varWord, name, .maybe (inOrder [sign .equal, .symbol expression]),
      sign .semicolon]
  | funDeclaration => inOrder [word .funWord, name, sign .leftParen, .maybe (.symbol params),
      sign .rightParen, .symbol block]
  | params => inOrder [name, .many (inOrder [sign .comma, name])]
  | statement => oneOf (.symbol exprStatement) [.symbol printStatement, .symbol ifStatement,
      .symbol whileStatement, .symbol forStatement, .symbol returnStatement, .symbol breakStatement,
      .symbol continueStatement, .symbol block]
  | exprStatement => inOrder [.symbol expression, sign .semicolon]
  | printStatement => inOrder [word .printWord, .symbol expression, sign .semicolon]
  | ifStatement => inOrder [word .ifWord, sign .leftParen, .symbol expression, sign .rightParen,
      .symbol statement, .maybe (inOrder [word .elseWord, .symbol statement])]
  | whileStatement => inOrder [word .whileWord, sign .leftParen, .symbol expression,
      sign .rightParen, .symbol statement]
  | forStatement => inOrder [word .forWord, sign .leftParen,
      oneOf (.symbol varDeclaration) [.symbol exprStatement, sign .semicolon],
      .maybe (.symbol expression), sign .semicolon, .maybe (.symbol expression), sign .rightParen,
      .symbol statement]
  | returnStatement => inOrder [word .returnWord, .maybe (.symbol expression), sign .semicolon]
  | breakStatement => inOrder [word .breakWord, sign .semicolon]
  | continueStatement => inOrder [word .continueWord, sign .semicolon]
  | block => inOrder [sign .leftBrace, .many (.symbol declaration), sign .rightBrace]
  | expression => oneOf (inOrder [name, sign .equal, .symbol expression])
      [.symbol (operation Level.all)]
  | operation [] => .symbol unary
  | operation (level :: tighter) => inOrder [.symbol (operation tighter),
      .many (inOrder [operator level, .symbol (operation tighter)])]
  | unary => oneOf (inOrder [unaryOperator, .symbol unary]) [.symbol call]
  | call => inOrder [.symbol primary,
      .many (inOrder [sign .leftParen, .maybe (.symbol args), sign .rightParen])]
  | args => inOrder [.symbol expression, .many (inOrder [sign .comma, .symbol expression])]
  | primary => oneOf leaf [inOrder [sign .leftParen, .symbol expression, sign .rightParen]]

namespace Form

inductive Derives : Form → List TokenKind → Prop where
  | nothing : Derives .nothing []
  | one {kinds : TokenKind → Prop} {some : ∃ kind, kinds kind} (holds : kinds kind) :
      Derives (.one kinds some) [kind]
  | symbol {name : Nonterminal} (derived : Derives name.rule phrase) : Derives (.symbol name) phrase
  | next (before : Derives first front) (behind : Derives second back) :
      Derives (.next first second) (front ++ back)
  | first (derived : Derives first phrase) : Derives (.either first second) phrase
  | second (derived : Derives second phrase) : Derives (.either first second) phrase
  | none : Derives (.maybe form) []
  | some (derived : Derives form phrase) : Derives (.maybe form) phrase
  | done : Derives (.many form) []
  | more (before : Derives form front) (behind : Derives (.many form) back) :
      Derives (.many form) (front ++ back)

def language (form : Form) : Language TokenKind := {phrase | form.Derives phrase}

theorem mem_language {form : Form} {phrase : List TokenKind} :
    phrase ∈ form.language ↔ form.Derives phrase := Iff.rfl

variable {first second form : Form} {phrase : List TokenKind}

theorem language_nothing : nothing.language = 1 := by
  ext phrase
  rw [Language.mem_one]
  constructor
  · intro derived
    cases derived
    rfl
  · rintro rfl
    exact .nothing

theorem mem_one {kinds : TokenKind → Prop} {some : ∃ kind, kinds kind} :
    phrase ∈ (one kinds some).language ↔ ∃ kind, phrase = [kind] ∧ kinds kind := by
  constructor
  · intro derived
    cases derived with
    | one holds => exact ⟨_, rfl, holds⟩
  · rintro ⟨kind, rfl, holds⟩
    exact .one holds

theorem here_of_one {kinds : TokenKind → Prop} {some : ∃ kind, kinds kind} {kind : TokenKind}
    {later : List TokenKind} {behind : Language TokenKind}
    (member : kind :: later ∈ (next (one kinds some) form).language * behind) : kinds kind := by
  obtain ⟨_, derived, _, _, same⟩ := Language.mem_mul.mp member
  cases derived with
  | next before _ =>
    obtain ⟨_, rfl, holds⟩ := mem_one.mp before
    cases same
    exact holds

theorem language_symbol (name : Nonterminal) : (symbol name).language = name.rule.language := by
  ext phrase
  constructor
  · intro derived
    cases derived with
    | symbol derived => exact derived
  · exact .symbol

theorem language_next : (next first second).language = first.language * second.language := by
  ext phrase
  rw [Language.mem_mul]
  constructor
  · intro derived
    cases derived with
    | next before behind => exact ⟨_, before, _, behind, rfl⟩
  · rintro ⟨front, before, back, behind, rfl⟩
    exact .next before behind

theorem language_either : (either first second).language = first.language + second.language := by
  ext phrase
  rw [Language.mem_add]
  constructor
  · intro derived
    cases derived with
    | first derived => exact .inl derived
    | second derived => exact .inr derived
  · rintro (derived | derived)
    · exact .first derived
    · exact .second derived

theorem language_maybe : (maybe form).language = 1 + form.language := by
  ext phrase
  rw [Language.mem_add, Language.mem_one]
  constructor
  · intro derived
    cases derived with
    | none => exact .inl rfl
    | some derived => exact .inr derived
  · rintro (rfl | derived)
    · exact .none
    · exact .some derived

theorem language_many : (many form).language = 1 + form.language * (many form).language := by
  ext phrase
  rw [Language.mem_add, Language.mem_one, Language.mem_mul]
  constructor
  · intro derived
    cases derived with
    | done => exact .inl rfl
    | more before behind => exact .inr ⟨_, before, _, behind, rfl⟩
  · rintro (rfl | ⟨front, before, back, behind, rfl⟩)
    · exact .done
    · exact .more before behind

theorem language_foldr (front : List Form) (rest : Form) :
    (front.foldr next rest).language = (inOrder front).language * rest.language := by
  induction front with
  | nil => rw [List.foldr_nil, inOrder, language_nothing, one_mul]
  | cons form front ih =>
    rw [List.foldr_cons, inOrder, language_next, language_next, ih, mul_assoc]

/-- The form derives something. -/
def Productive (form : Form) : Prop := ∃ phrase, phrase ∈ form.language

@[simp] theorem productive_nothing : nothing.Productive := ⟨[], .nothing⟩

@[simp] theorem productive_one {kinds : TokenKind → Prop} {some : ∃ kind, kinds kind} :
    (one kinds some).Productive :=
  some.elim fun kind holds => ⟨[kind], .one holds⟩

@[simp] theorem productive_sign {text : Symbol} : (sign text).Productive := productive_one

@[simp] theorem productive_word {text : Keyword} : (word text).Productive := productive_one

@[simp] theorem productive_name : Form.name.Productive := productive_one

@[simp] theorem productive_maybe : (maybe form).Productive := ⟨[], .none⟩

@[simp] theorem productive_many : (many form).Productive := ⟨[], .done⟩

@[simp] theorem productive_next :
    (next first second).Productive ↔ first.Productive ∧ second.Productive := by
  constructor
  · rintro ⟨_, derived⟩
    cases derived with
    | next before behind => exact ⟨⟨_, before⟩, ⟨_, behind⟩⟩
  · rintro ⟨⟨_, before⟩, ⟨_, behind⟩⟩
    exact ⟨_, .next before behind⟩

theorem Productive.left : first.Productive → (Form.either first second).Productive
  | ⟨_, derived⟩ => ⟨_, .first derived⟩

theorem Productive.right : second.Productive → (Form.either first second).Productive
  | ⟨_, derived⟩ => ⟨_, .second derived⟩

theorem Productive.symbol {name : Nonterminal} : name.rule.Productive → (symbol name).Productive
  | ⟨_, derived⟩ => ⟨_, .symbol derived⟩

theorem productive_symbol (name : Nonterminal) : (symbol name).Productive := by
  have primary : (symbol .primary).Productive := .symbol (.left productive_one)
  have call : (symbol .call).Productive :=
    .symbol (by simpa [Nonterminal.rule, inOrder] using primary)
  have unary : (symbol .unary).Productive := .symbol (.right call)
  have operation (levels : List Level) : (symbol (.operation levels)).Productive := by
    induction levels with
    | nil => exact .symbol unary
    | cons level tighter ih => exact .symbol (by simpa [Nonterminal.rule, inOrder] using ih)
  have expression : (symbol .expression).Productive := .symbol (.right (operation Level.all))
  have exprStatement : (symbol .exprStatement).Productive :=
    .symbol (by simpa [Nonterminal.rule, inOrder] using expression)
  have statement : (symbol .statement).Productive := .symbol (.left exprStatement)
  have block : (symbol .block).Productive := .symbol (by simp [Nonterminal.rule, inOrder])
  have declared : (symbol .varDeclaration).Productive :=
    .symbol (by simp [Nonterminal.rule, inOrder])
  have clause : (oneOf (symbol .varDeclaration) [symbol .exprStatement, sign .semicolon]).Productive :=
    .left declared
  cases name
  case declaration => exact .symbol (.left declared)
  case statement => exact statement
  case expression => exact expression
  case operation levels => exact operation levels
  case unary => exact unary
  case primary => exact primary
  all_goals
    apply Productive.symbol
    simp [Nonterminal.rule, inOrder, primary, expression, statement, block, clause]

theorem productive : (form : Form) → form.Productive
  | nothing => productive_nothing
  | one _ _ => productive_one
  | symbol name => productive_symbol name
  | maybe _ => productive_maybe
  | many _ => productive_many
  | next first second => productive_next.mpr ⟨first.productive, second.productive⟩
  | either first _ => .left first.productive

/-- Whatever the form derives begins with such a token. -/
def Opens (form : Form) (starts : TokenKind → Prop) : Prop :=
  ∀ phrase ∈ form.language, Begins starts phrase

namespace Opens

variable {starts weaker : TokenKind → Prop}

theorem mono (opens : form.Opens starts) (implies : ∀ kind, starts kind → weaker kind) :
    form.Opens weaker :=
  fun phrase derived => (opens phrase derived).mono implies

theorem one {kinds : TokenKind → Prop} {some : ∃ kind, kinds kind} :
    (Form.one kinds some).Opens kinds := by
  intro phrase derived
  obtain ⟨kind, rfl, holds⟩ := mem_one.mp derived
  exact ⟨kind, [], rfl, holds⟩

theorem symbol {name : Nonterminal} (opens : name.rule.Opens starts) :
    (Form.symbol name).Opens starts := by
  intro phrase derived
  rw [language_symbol] at derived
  exact opens phrase derived

theorem next (opens : first.Opens starts) : (Form.next first second).Opens starts := by
  intro phrase derived
  rw [language_next] at derived
  obtain ⟨front, before, back, -, rfl⟩ := Language.mem_mul.mp derived
  exact (opens front before).append back

theorem either (opens : first.Opens starts) (other : second.Opens starts) :
    (Form.either first second).Opens starts := by
  intro phrase derived
  rw [language_either] at derived
  rcases derived with derived | derived
  · exact opens phrase derived
  · exact other phrase derived

theorem begins (opens : form.Opens starts) {kind : TokenKind} {later : List TokenKind}
    {behind : Language TokenKind} (member : kind :: later ∈ form.language * behind) :
    starts kind := by
  obtain ⟨front, derived, back, -, same⟩ := Language.mem_mul.mp member
  obtain ⟨begun, rest, rfl, holds⟩ := opens front derived
  obtain ⟨rfl, -⟩ := List.cons.inj same
  exact holds

end Opens

section
variable {behind : Language TokenKind}

theorem mem_either : phrase ∈ (either first second).language * behind ↔
    phrase ∈ first.language * behind ∨ phrase ∈ second.language * behind := by
  rw [language_either, add_mul, Language.mem_add]

theorem mem_maybe : phrase ∈ (maybe form).language * behind ↔
    phrase ∈ behind ∨ phrase ∈ form.language * behind := by
  rw [language_maybe, add_mul, one_mul, Language.mem_add]

theorem mem_many : phrase ∈ (many form).language * behind ↔
    phrase ∈ behind ∨ phrase ∈ form.language * ((many form).language * behind) := by
  nth_rewrite 1 [language_many]
  rw [add_mul, one_mul, mul_assoc, Language.mem_add]

theorem mem_oneOf {rest : List Form} : phrase ∈ (oneOf first rest).language * behind ↔
    ∃ form ∈ first :: rest, phrase ∈ form.language * behind := by
  induction rest generalizing first with
  | nil => simp [oneOf]
  | cons second rest ih => simp [oneOf, mem_either, ih]

end

theorem Opens.oneOf {rest : List Form} {starts : TokenKind → Prop}
    (opens : ∀ form ∈ first :: rest, form.Opens starts) : (oneOf first rest).Opens starts := by
  intro phrase derived
  rw [← mul_one (Form.oneOf first rest).language] at derived
  obtain ⟨form, inside, derived⟩ := mem_oneOf.mp derived
  rw [mul_one] at derived
  exact opens form inside phrase derived

theorem primary_opens : (symbol .primary).Opens fun kind =>
    Starts kind ∧ kind.unaryOperator? = none := by
  refine .symbol (.either (Opens.one.mono ?_) (.next (Opens.one.mono ?_)))
  · rintro kind ⟨tree, leaf⟩
    cases leaf <;> exact ⟨by constructor, rfl⟩
  · rintro kind rfl
    exact ⟨.bracket, rfl⟩

theorem unary_opens : (symbol .unary).Opens Starts := by
  refine .symbol (.either (.next (Opens.one.mono ?_)) (.symbol (.next ?_)))
  · rintro kind ⟨sign, isPrefix⟩
    cases isPrefix <;> constructor
  · exact primary_opens.mono fun _ => And.left

theorem operation_opens : (levels : List Level) → (symbol (.operation levels)).Opens Starts
  | [] => .symbol unary_opens
  | _ :: tighter => .symbol (.next (operation_opens tighter))

theorem expression_opens : (symbol .expression).Opens Starts := by
  refine .symbol (.either (.next (Opens.one.mono ?_)) (operation_opens Level.all))
  rintro kind ⟨name, rfl⟩
  exact .name

/-- What the forms of a statement begin with. -/
inductive Heads : Form → TokenKind → Prop where
  | expression (starts : Starts kind) : Heads (.symbol .exprStatement) kind
  | print : Heads (.symbol .printStatement) (.keyword .printWord)
  | conditional : Heads (.symbol .ifStatement) (.keyword .ifWord)
  | whileLoop : Heads (.symbol .whileStatement) (.keyword .whileWord)
  | forLoop : Heads (.symbol .forStatement) (.keyword .forWord)
  | returnValue : Heads (.symbol .returnStatement) (.keyword .returnWord)
  | breakLoop : Heads (.symbol .breakStatement) (.keyword .breakWord)
  | continueLoop : Heads (.symbol .continueStatement) (.keyword .continueWord)
  | block : Heads (.symbol .block) (.symbol .leftBrace)

theorem Heads.starts {form : Form} {kind : TokenKind} (heads : Heads form kind) :
    StatementStarts kind := by
  cases heads with
  | expression starts => exact .expression starts
  | print => exact .print
  | conditional => exact .conditional
  | whileLoop => exact .whileLoop
  | forLoop => exact .forLoop
  | returnValue => exact .returnValue
  | breakLoop => exact .breakLoop
  | continueLoop => exact .continueLoop
  | block => exact .block

theorem Heads.unique {form other : Form} {kind : TokenKind} (heads : Heads form kind)
    (plain : ¬ Starts kind) (again : Heads other kind) : other = form := by
  cases heads <;> cases again <;> first | rfl | contradiction

/-- The forms of a statement. -/
def statements : List Form := [.symbol .exprStatement, .symbol .printStatement,
  .symbol .ifStatement, .symbol .whileStatement, .symbol .forStatement, .symbol .returnStatement,
  .symbol .breakStatement, .symbol .continueStatement, .symbol .block]

theorem heads_of_statements : ∀ form ∈ statements, form.Opens (Heads form) := by
  have headed {name : Nonterminal} {kind : TokenKind} {some : ∃ other, other = kind} {rest : Form}
      (rule : name.rule = .next (.one (· = kind) some) rest) (heads : Heads (.symbol name) kind) :
      (Form.symbol name).Opens (Heads (.symbol name)) := by
    refine .symbol ?_
    rw [rule]
    exact .next (Opens.one.mono fun _ same => same ▸ heads)
  have expression : (Form.symbol .exprStatement).Opens (Heads (.symbol .exprStatement)) :=
    .symbol (.next (expression_opens.mono fun _ => .expression))
  simp only [statements, List.forall_mem_cons, List.not_mem_nil, false_imp_iff, implies_true, and_true]
  exact ⟨expression, headed rfl .print, headed rfl .conditional, headed rfl .whileLoop,
    headed rfl .forLoop, headed rfl .returnValue, headed rfl .breakLoop, headed rfl .continueLoop,
    headed rfl .block⟩

theorem statement_opens : (symbol .statement).Opens StatementStarts :=
  .symbol (.oneOf fun form inside => (heads_of_statements form inside).mono fun _ => Heads.starts)

theorem declaration_opens : (symbol .declaration).Opens DeclarationStarts := by
  refine .symbol (.either (.symbol (.next (Opens.one.mono ?_))) ?_)
  · exact fun _ same => same ▸ .declare
  refine .either (.symbol (.next (Opens.one.mono ?_))) ?_
  · exact fun _ same => same ▸ .function
  · exact statement_opens.mono fun _ => .statement

/-- What an expression could go on with that has operators of these levels. -/
def Extends (levels : List Level) (kind : TokenKind) : Prop :=
  kind = .symbol .leftParen ∨ ∃ level ∈ levels, ∃ joint, Operator level kind joint

theorem name_derived (name : String) :
    (levels : List Level) → [.identifier name] ∈ (symbol (.operation levels)).language
  | [] =>
    have leaf : leaf.Derives [.identifier name] := .one ⟨_, .name⟩
    have primary : (symbol .primary).Derives [.identifier name] := .symbol (.first leaf)
    have call : (symbol .call).Derives [.identifier name] :=
      .symbol (.next primary (.next .done .nothing))
    .symbol (.symbol (.second call))
  | _ :: tighter => .symbol (.next (name_derived name tighter) (.next .done .nothing))

/-- Behind a name stands what extends an expression, or the expression has ended. -/
theorem name_next {name : String} {kind : TokenKind} {later : List TokenKind} (levels : List Level)
    {behind : Language TokenKind} (member : .identifier name :: kind :: later ∈
      (symbol (.operation levels)).language * behind) :
    Extends levels kind ∨ kind :: later ∈ behind := by
  induction levels generalizing behind with
  | nil =>
    rw [language_symbol, Nonterminal.rule, language_symbol, Nonterminal.rule] at member
    -- A name is no prefix operator, so it is the head of a call.
    have called := (mem_either.mp member).resolve_left fun member => by
      obtain ⟨sign, isPrefix⟩ := (Opens.next .one).begins member
      cases isPrefix
    rw [oneOf, language_symbol, Nonterminal.rule, inOrder, language_next, mul_assoc, language_symbol,
      Nonterminal.rule] at called
    rcases mem_either.mp called with leaf | bracket
    · obtain ⟨_, single, rest, goesOn, same⟩ := Language.mem_mul.mp leaf
      obtain ⟨_, rfl, -⟩ := mem_one.mp single
      obtain ⟨-, rfl⟩ := List.cons.inj same
      rw [inOrder, inOrder, language_next, language_nothing, mul_one] at goesOn
      rcases mem_many.mp goesOn with goesOn | goesOn
      · exact .inr goesOn
      · have bracket := (Opens.next .one).begins goesOn
        exact .inl (.inl bracket)
    · have impossible := (Opens.next .one).begins bracket
      cases impossible
  | cons level tighter ih =>
    rw [language_symbol, Nonterminal.rule, inOrder, language_next, mul_assoc] at member
    rcases ih member with extended | goesOn
    · exact .inl (extended.imp_right fun ⟨other, inside, joint⟩ => ⟨other, .tail _ inside, joint⟩)
    · rw [inOrder, inOrder, language_next, language_nothing, mul_one] at goesOn
      rcases mem_many.mp goesOn with goesOn | goesOn
      · exact .inr goesOn
      · obtain ⟨joint, operator⟩ := (Opens.next .one).begins goesOn
        exact .inl (.inr ⟨level, List.mem_cons_self, joint, operator⟩)

/-- Nothing in the language begins with such a token. -/
def Avoids (kinds : TokenKind → Prop) (behind : Language TokenKind) : Prop :=
  ∀ kind, kinds kind → ∀ later, kind :: later ∉ behind

namespace Avoids

variable {kinds stronger starts : TokenKind → Prop} {behind : Language TokenKind}

theorem mono (avoids : Avoids kinds behind) (implies : ∀ kind, stronger kind → kinds kind) :
    Avoids stronger behind :=
  fun kind holds => avoids kind (implies kind holds)

theorem of_opens (opens : form.Opens starts) (other : ∀ kind, kinds kind → ¬ starts kind) :
    Avoids kinds (form.language * behind) :=
  fun kind holds _ member => other kind holds (opens.begins member)

theorem many (opens : form.Opens starts) (other : ∀ kind, kinds kind → ¬ starts kind)
    (avoids : Avoids kinds behind) : Avoids kinds ((inOrder [.many form]).language * behind) := by
  intro kind holds later member
  rw [inOrder, inOrder, language_next, language_nothing, mul_one] at member
  rcases mem_many.mp member with member | member
  · exact avoids kind holds later member
  · exact other kind holds (opens.begins member)

theorem last (avoids : Avoids kinds behind) : Avoids kinds ((inOrder []).language * behind) := by
  rwa [inOrder, language_nothing, one_mul]

end Avoids

end Form
end Lox.Grammar
