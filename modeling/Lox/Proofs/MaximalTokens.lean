import Mathlib.Computability.Language
import Lox.Proofs.DoubleRounding
import Lox.Proofs.TokenText

/-! A token is as long as it can be, and it is what its text says. What the texts of tokens are is
said by the regular languages of the description, which know nothing of how a source is cut. -/

namespace Lox
namespace Lexeme
open scoped Computability

/-- The texts of one character of a set. -/
def one (chars : Set Char) : Language Char := {text | ∃ char ∈ chars, text = [char]}

def between (low high : Char) : Set Char := {char | low ≤ char ∧ char ≤ high}

def letters : Set Char := between 'a' 'z' ∪ between 'A' 'Z' ∪ {'_'}

def digits : Set Char := between '0' '9'

def words : Language Char := one letters * (one (letters ∪ digits))∗

def numerals : Language Char := one digits * (one digits)∗

def numbers : Language Char := numerals + numerals * one {'.'} * numerals

def strings : Language Char := one {'"'} * (one {char | char ≠ '"'})∗ * one {'"'}

def operators : Language Char := {text | ∃ sign : Symbol, text = sign.spelling.toList}

/-- The texts of tokens. -/
def all : Language Char := words + numbers + strings + operators

variable {chars : Set Char} {text : List Char}

theorem mem_many : text ∈ (one chars)∗ ↔ ∀ char ∈ text, char ∈ chars := by
  rw [Language.mem_kstar]
  constructor
  · rintro ⟨parts, rfl, ones⟩ char inside
    obtain ⟨part, member, inside⟩ := List.mem_flatten.mp inside
    obtain ⟨other, holds, rfl⟩ := ones part member
    obtain rfl := List.mem_singleton.mp inside
    exact holds
  · intro all
    refine ⟨text.map fun char => [char], by rw [← List.flatMap_def, List.flatMap_singleton'],
      fun part member => ?_⟩
    obtain ⟨char, inside, rfl⟩ := List.mem_map.mp member
    exact ⟨char, all char inside, rfl⟩

theorem mem_one_mul {behind : Language Char} :
    text ∈ one chars * behind ↔ ∃ char ∈ chars, ∃ rest ∈ behind, text = char :: rest := by
  rw [Language.mem_mul]
  constructor
  · rintro ⟨_, ⟨char, holds, rfl⟩, rest, derived, rfl⟩
    exact ⟨char, holds, rest, derived, rfl⟩
  · rintro ⟨char, holds, rest, derived, rfl⟩
    exact ⟨[char], ⟨char, holds, rfl⟩, rest, derived, rfl⟩

theorem mem_words : text ∈ words ↔ ∃ first ∈ letters, ∃ rest : List Char,
    (∀ char ∈ rest, char ∈ letters ∪ digits) ∧ text = first :: rest := by
  simp only [words, mem_one_mul, mem_many]

theorem mem_numerals : text ∈ numerals ↔ text ≠ [] ∧ ∀ char ∈ text, char ∈ digits := by
  simp only [numerals, mem_one_mul, mem_many]
  constructor
  · rintro ⟨first, holds, rest, all, rfl⟩
    exact ⟨List.cons_ne_nil first rest, List.forall_mem_cons.mpr ⟨holds, all⟩⟩
  · rintro ⟨some, all⟩
    obtain ⟨first, rest, rfl⟩ := List.exists_cons_of_ne_nil some
    obtain ⟨holds, all⟩ := List.forall_mem_cons.mp all
    exact ⟨first, holds, rest, all, rfl⟩

theorem mem_numbers : text ∈ numbers ↔ text ∈ numerals ∨
    ∃ whole ∈ numerals, ∃ places ∈ numerals, text = whole ++ '.' :: places := by
  rw [numbers, mul_assoc, Language.mem_add, Language.mem_mul]
  refine or_congr_right ⟨?_, ?_⟩
  · rintro ⟨whole, numeral, _, behind, rfl⟩
    obtain ⟨_, rfl, places, numeral', rfl⟩ := mem_one_mul.mp behind
    exact ⟨whole, numeral, places, numeral', rfl⟩
  · rintro ⟨whole, numeral, places, numeral', rfl⟩
    exact ⟨whole, numeral, _, mem_one_mul.mpr ⟨_, rfl, places, numeral', rfl⟩, rfl⟩

theorem mem_strings : text ∈ strings ↔
    ∃ contents : List Char, '"' ∉ contents ∧ text = '"' :: (contents ++ ['"']) := by
  rw [strings, mul_assoc, mem_one_mul]
  constructor
  · rintro ⟨_, rfl, _, behind, rfl⟩
    obtain ⟨contents, inside, _, ⟨_, rfl, rfl⟩, rfl⟩ := Language.mem_mul.mp behind
    exact ⟨contents, fun quote => mem_many.mp inside _ quote rfl, rfl⟩
  · rintro ⟨contents, closed, rfl⟩
    refine ⟨_, rfl, _, Language.mem_mul.mpr ⟨contents, mem_many.mpr ?_, _, ⟨_, rfl, rfl⟩, rfl⟩, rfl⟩
    rintro char inside rfl
    exact closed inside

theorem mem_digits {char : Char} : char ∈ digits ↔ char.isDigit = true := by
  simp [digits, between, Char.isDigit, Char.le_def]

theorem mem_letters {char : Char} : char ∈ letters ↔ Cut.isWordStart char = true := by
  unfold Cut.isWordStart Char.isAlpha Char.isUpper Char.isLower
  simp [letters, between, Char.le_def, or_comm]

theorem mem_parts {char : Char} : char ∈ letters ∪ digits ↔ Cut.isWordPart char = true := by
  rw [Set.mem_union, mem_letters, mem_digits]
  simp only [Cut.isWordStart, Cut.isWordPart, Char.isAlphanum, Bool.or_eq_true]
  exact or_right_comm

theorem sign_start {char : Char} {sign : Symbol} (spells : Symbol.ofChar? char = some sign) :
    Cut.isBlank char = false ∧ Cut.isWordStart char = false ∧ char.isDigit = false ∧ char ≠ '"' := by
  unfold Symbol.ofChar? at spells
  split at spells <;> first | decide | cases spells

theorem spelling_of_char {char : Char} {sign : Symbol} (spells : Symbol.ofChar? char = some sign) :
    sign.spelling.toList = [char] := by
  unfold Symbol.ofChar? at spells
  split at spells <;> cases spells <;> rfl

theorem spelling_with_equal {sign double : Symbol} (doubles : sign.withEqual? = some double) :
    double.spelling.toList = sign.spelling.toList ++ ['='] := by
  cases sign <;> cases doubles <;> rfl

/-- What an operator is made of: a sign, and an equals sign if the two are an operator as well. -/
theorem mem_operators : text ∈ operators ↔ ∃ first sign, Symbol.ofChar? first = some sign ∧
    (text = [first] ∨ ∃ double, sign.withEqual? = some double ∧ text = [first, '=']) := by
  constructor
  · rintro ⟨sign, rfl⟩
    cases sign <;>
      first | exact ⟨_, _, rfl, .inl rfl⟩ | exact ⟨_, _, rfl, .inr ⟨_, rfl, rfl⟩⟩
  · rintro ⟨first, sign, spells, rfl | ⟨double, doubles, rfl⟩⟩
    · exact ⟨sign, (spelling_of_char spells).symm⟩
    · exact ⟨double, by rw [spelling_with_equal doubles, spelling_of_char spells]; rfl⟩

theorem number_begins (number : text ∈ numbers) :
    ∃ first rest, text = first :: rest ∧ first.isDigit = true := by
  rcases mem_numbers.mp number with whole | ⟨whole, numeral, places, -, rfl⟩
  · obtain ⟨first, digit, rest, -, rfl⟩ := mem_one_mul.mp whole
    exact ⟨first, rest, rfl, mem_digits.mp digit⟩
  · obtain ⟨first, digit, rest, -, rfl⟩ := mem_one_mul.mp numeral
    exact ⟨first, _, rfl, mem_digits.mp digit⟩

theorem operator_begins (operator : text ∈ operators) :
    ∃ first rest sign, text = first :: rest ∧ Symbol.ofChar? first = some sign := by
  obtain ⟨first, sign, spells, rfl | ⟨-, -, rfl⟩⟩ := mem_operators.mp operator
  · exact ⟨first, _, sign, rfl, spells⟩
  · exact ⟨first, _, sign, rfl, spells⟩

/-- The lexemes that begin with a character. -/
noncomputable def headed (first : Char) : Language Char :=
  if Cut.isWordStart first then words
  else if first.isDigit then numbers
  else if first = '"' then strings
  else operators

theorem mem_headed (member : text ∈ all) :
    ∃ first rest, text = first :: rest ∧ text ∈ headed first := by
  simp only [all, Language.mem_add] at member
  rcases member with ((word | number) | string) | operator
  · obtain ⟨first, starts, rest, -, rfl⟩ := mem_words.mp word
    refine ⟨first, rest, rfl, ?_⟩
    rwa [headed, if_pos (mem_letters.mp starts)]
  · obtain ⟨first, rest, rfl, digit⟩ := number_begins number
    refine ⟨first, rest, rfl, ?_⟩
    rwa [headed, if_neg (Cut.not_start_of_digit digit), if_pos digit]
  · obtain ⟨contents, -, rfl⟩ := mem_strings.mp string
    exact ⟨_, _, rfl, string⟩
  · obtain ⟨first, rest, sign, rfl, spells⟩ := operator_begins operator
    obtain ⟨-, starts, digit, quote⟩ := sign_start spells
    refine ⟨first, rest, rfl, ?_⟩
    rwa [headed, if_neg (by simp [starts]), if_neg (by simp [digit]), if_neg quote]

/-- No lexeme at the front of a text is longer than what is cut off. -/
def Longest (cut : Cut) (text : List Char) : Prop :=
  ∀ other ∈ all, other <+: text → other.length ≤ cut.lexeme.length

theorem longest_of_headed {first : Char} {rest : List Char} {cut : Cut}
    (longest : ∀ other ∈ headed first, other <+: first :: rest → other.length ≤ cut.lexeme.length) :
    Longest cut (first :: rest) := by
  intro other member begins
  obtain ⟨head, tail, rfl, member⟩ := mem_headed member
  obtain ⟨rfl, -⟩ := List.cons_prefix_cons.mp begins
  exact longest _ member begins

/-- A text of such characters is no longer than all of them at the front. -/
theorem length_le_takeWhile {test : Char → Bool} {front text : List Char}
    (all : ∀ char ∈ front, test char = true) (begins : front <+: text) :
    front.length ≤ (text.takeWhile test).length := by
  obtain ⟨rest, rfl⟩ := begins
  rw [List.takeWhile_append_of_pos all, List.length_append]
  exact Nat.le_add_right ..

theorem word_longest {first : Char} (starts : Cut.isWordStart first = true) (rest : List Char) :
    Longest (Cut.word (first :: rest)) (first :: rest) := by
  refine longest_of_headed fun other member begins => ?_
  rw [headed, if_pos starts] at member
  obtain ⟨head, letter, tail, parts, rfl⟩ := mem_words.mp member
  refine length_le_takeWhile (fun char inside => mem_parts.mp ?_) begins
  rcases List.mem_cons.mp inside with rfl | behind
  · exact .inl letter
  · exact parts char behind

theorem digits_of_numeral {text : List Char} (numeral : text ∈ numerals) :
    ∀ char ∈ text, char.isDigit = true :=
  fun char inside => mem_digits.mp ((mem_numerals.mp numeral).2 char inside)

theorem number_longest {first : Char} (digit : first.isDigit = true) (rest : List Char) :
    Longest (Cut.number (first :: rest)) (first :: rest) := by
  refine longest_of_headed fun other member begins => ?_
  rw [headed, if_neg (Cut.not_start_of_digit digit), if_pos digit] at member
  generalize first :: rest = text at begins
  rcases mem_numbers.mp member with whole | ⟨whole, numeral, places, numeral', rfl⟩
  · have short := length_le_takeWhile (digits_of_numeral whole) begins
    simp only [Cut.number]
    split
    · exact short
    · rw [List.length_append]
      exact Nat.le_add_right_of_le short
  · obtain ⟨after, rfl⟩ := begins
    have point : ∀ char ∈ ('.' :: (places ++ after)).head?, ¬ char.isDigit = true := by
      rintro _ ⟨⟩
      decide
    have split := Cut.digits_append (digits_of_numeral numeral) point
    have more := length_le_takeWhile (digits_of_numeral numeral') (List.prefix_append places after)
    have some : (Cut.fraction ('.' :: (places ++ after))).isEmpty = false := by
      rw [List.isEmpty_eq_false_iff, ← List.length_pos_iff]
      exact Nat.lt_of_lt_of_le (List.length_pos_iff.mpr (mem_numerals.mp numeral').1) more
    have text : whole ++ '.' :: places ++ after = whole ++ '.' :: (places ++ after) := by simp
    simp only [Cut.number, text, split.1, split.2, some, Bool.false_eq_true, if_false,
      List.length_append, List.length_cons]
    exact Nat.add_le_add_left (Nat.succ_le_succ more) _

theorem string_longest (rest : List Char) : Longest (Cut.string rest) ('"' :: rest) := by
  refine longest_of_headed fun other member begins => ?_
  have member : other ∈ strings := member
  obtain ⟨contents, closed, rfl⟩ := mem_strings.mp member
  obtain ⟨after, same⟩ := begins
  have inside : ∀ char ∈ contents, (char != '"') = true := by
    intro char inside
    rw [bne_iff_ne]
    rintro rfl
    exact closed inside
  obtain rfl : contents ++ '"' :: after = rest := by simpa using same
  rw [Cut.string, List.takeWhile_append_of_pos inside, List.dropWhile_append_of_pos inside]
  simp

theorem symbol_longest {first : Char} {sign : Symbol} (spells : Symbol.ofChar? first = some sign)
    (rest : List Char) : Longest (Cut.symbol first sign rest) (first :: rest) := by
  refine longest_of_headed fun other member begins => ?_
  obtain ⟨-, starts, digit, quote⟩ := sign_start spells
  rw [headed, if_neg (by simp [starts]), if_neg (by simp [digit]), if_neg quote] at member
  obtain ⟨head, sign', spells', rfl | ⟨double, doubles, rfl⟩⟩ := mem_operators.mp member
  · unfold Cut.symbol
    split <;> simp
  · obtain ⟨after, same⟩ := begins
    cases same
    obtain rfl := Option.some.inj (spells.symm.trans spells')
    simp [Cut.symbol, doubles]

/-- The words that are no names. -/
def reserved : List String :=
  ["and", "class", "else", "false", "for", "fun", "if", "nil", "or", "print", "return", "super",
    "this", "true", "var", "while", "break", "continue"]

theorem mem_reserved {name : String} :
    name ∈ reserved ↔ ∃ word : Keyword, word.spelling = name := by
  constructor
  · intro listed
    have spelled : reserved.all fun name => Keyword.all.any fun word => word.spelling == name := by
      decide
    obtain ⟨word, -, same⟩ := List.any_eq_true.mp (List.all_eq_true.mp spelled name listed)
    exact ⟨word, beq_iff_eq.mp same⟩
  · rintro ⟨word, rfl⟩
    cases word <;> decide

/-- What a numeral stands for, its digits and those of its fraction behind a point. -/
def amount (text : List Char) : ℚ :=
  let whole := text.takeWhile (· != '.')
  let places := text.drop (whole.length + 1)
  Nat.ofDigitChars 10 whole 0 + Nat.ofDigitChars 10 places 0 / 10 ^ places.length

/-- What a token is by its text. -/
inductive Means : List Char → TokenKind → Prop where
  | keyword (listed : word.spelling ∈ reserved) : Means word.spelling.toList (.keyword word)
  | identifier (word : lexeme ∈ words) (free : String.ofList lexeme ∉ reserved) :
      Means lexeme (.identifier (String.ofList lexeme))
  | string (closed : '"' ∉ contents) :
      Means ('"' :: (contents ++ ['"'])) (.string (String.ofList contents))
  | number (numeral : lexeme ∈ numbers) (positive : Number.isNegative value = false)
      (rounds : Double.Rounds (amount lexeme) (Number.magnitude value)) : Means lexeme (.number value)
  | symbol : Means sign.spelling.toList (.symbol sign)

theorem word_means {first : Char} (starts : Cut.isWordStart first = true) (rest : List Char)
    {kind : TokenKind} (found : (Cut.word (first :: rest)).content = .token kind) :
    Means (Cut.word (first :: rest)).lexeme kind := by
  have proper : (first :: rest).takeWhile Cut.isWordPart ∈ words := by
    rw [List.takeWhile_cons_of_pos (Cut.isWordPart_of_start starts)]
    refine mem_words.mpr ⟨first, mem_letters.mpr starts, _, fun char inside => ?_, rfl⟩
    exact mem_parts.mpr (List.all_eq_true.mp List.all_takeWhile char inside)
  unfold Cut.word at found ⊢
  generalize (first :: rest).takeWhile Cut.isWordPart = lexeme at *
  obtain rfl := Content.token.inj found
  split
  next word known =>
    unfold Keyword.ofWord? at known
    have matched := List.find?_some known
    have same : word.spelling = String.ofList lexeme := beq_iff_eq.mp matched
    have means := Means.keyword (mem_reserved.mpr ⟨word, rfl⟩)
    rwa [same, String.toList_ofList] at means
  next unknown =>
    refine .identifier proper fun listed => ?_
    obtain ⟨word, same⟩ := mem_reserved.mp listed
    have other := List.find?_eq_none.mp unknown word (by cases word <;> decide)
    exact other (beq_iff_eq.mpr same)

theorem string_means {rest : List Char} {kind : TokenKind}
    (found : (Cut.string rest).content = .token kind) : Means (Cut.string rest).lexeme kind := by
  have closed : '"' ∉ rest.takeWhile (· != '"') := by
    intro inside
    simpa using List.all_eq_true.mp List.all_takeWhile _ inside
  unfold Cut.string at found ⊢
  generalize rest.takeWhile (· != '"') = contents at *
  split at found
  next quote after left =>
    obtain rfl := Cut.closing_quote left
    obtain rfl := Content.token.inj found
    exact .string closed
  next => cases found

theorem symbol_means {first : Char} {sign : Symbol} (spells : Symbol.ofChar? first = some sign)
    {rest : List Char} {kind : TokenKind}
    (found : (Cut.symbol first sign rest).content = .token kind) :
    Means (Cut.symbol first sign rest).lexeme kind := by
  have single := spelling_of_char spells
  unfold Cut.symbol at found ⊢
  split at found
  next double after doubles =>
    obtain rfl := Content.token.inj found
    have means : Means double.spelling.toList (.symbol double) := .symbol
    rwa [spelling_with_equal doubles, single] at means
  next =>
    obtain rfl := Content.token.inj found
    exact single ▸ .symbol

/-- A numeral stands for the decimal that is made of its digits. -/
theorem amount_eq {whole places : List Char} (digits : ∀ char ∈ whole, char.isDigit = true) :
    amount (if places.isEmpty then whole else whole ++ '.' :: places) =
      (Decimal.ofDigits whole places).amount := by
  have inside : ∀ char ∈ whole, (char != '.') = true := by
    intro char member
    rw [bne_iff_ne]
    rintro rfl
    cases digits _ member
  rw [Decimal.ofDigits_eq, Decimal.amount, Nat.ofDigitChars_append,
    Nat.ofDigitChars_eq_ofDigitChars_zero]
  cases places with
  | nil =>
    have all : (whole ++ []).takeWhile (· != '.') = whole ++ [].takeWhile (· != '.') :=
      List.takeWhile_append_of_pos inside
    have none : whole.drop (whole.length + 1) = [] := List.drop_eq_nil_of_le (Nat.le_succ _)
    simp only [List.append_nil, List.takeWhile_nil] at all
    simp [amount, all, none]
  | cons place places =>
    simp only [List.isEmpty_cons, Bool.false_eq_true, if_false, amount]
    rw [List.takeWhile_append_of_pos inside, List.takeWhile_cons_of_neg (by simp), List.append_nil,
      List.drop_length_add_append, List.drop_succ_cons, List.drop_zero]
    push_cast
    field_simp

theorem number_means {first : Char} (digit : first.isDigit = true) (rest : List Char)
    {kind : TokenKind} (found : (Cut.number (first :: rest)).content = .token kind) :
    Means (Cut.number (first :: rest)).lexeme kind := by
  have digits : ∀ char ∈ (first :: rest).takeWhile Char.isDigit, char.isDigit = true :=
    List.all_eq_true.mp List.all_takeWhile
  have filled : (first :: rest).takeWhile Char.isDigit ≠ [] := by simp [digit]
  have places := Cut.fraction_digits ((first :: rest).dropWhile Char.isDigit)
  obtain rfl := Content.token.inj found
  simp only [Cut.number]
  generalize Cut.fraction ((first :: rest).dropWhile Char.isDigit) = fraction at *
  generalize (first :: rest).takeWhile Char.isDigit = whole at *
  have numeral : whole ∈ numerals :=
    mem_numerals.mpr ⟨filled, fun char inside => mem_digits.mpr (digits char inside)⟩
  refine .number ?_ (Number.isNegative_ofDecimal _) ?_
  · split
    next => exact mem_numbers.mpr (.inl numeral)
    next some =>
      refine mem_numbers.mpr (.inr ⟨whole, numeral, fraction, mem_numerals.mpr ⟨?_, ?_⟩, rfl⟩)
      · simpa using some
      · exact fun char inside => mem_digits.mpr (places char inside)
  · rw [amount_eq digits, Number.magnitude, Number.ofDecimal,
      Number.toBits_ofMagnitude (Decimal.nearest_le _)]
    have small : (Decimal.ofDigits whole fraction).nearest < Nat.pow 2 63 :=
      Nat.lt_of_le_of_lt (Decimal.nearest_le _) (by decide)
    rw [Nat.mod_eq_of_lt small]
    exact Decimal.nearest_rounds _

theorem ofText_munches {first : Char} {rest : List Char} {kind : TokenKind}
    (found : (Cut.ofText first rest).content = .token kind) :
    Longest (Cut.ofText first rest) (first :: rest) ∧
      Means (Cut.ofText first rest).lexeme kind := by
  unfold Cut.ofText at found ⊢
  split
  next blank =>
    rw [if_pos blank] at found
    cases found
  next notBlank =>
    rw [if_neg notBlank] at found
    split
    next starts =>
      rw [if_pos starts] at found
      exact ⟨word_longest starts rest, word_means starts rest found⟩
    next notWord =>
      rw [if_neg notWord] at found
      split
      next digit =>
        rw [if_pos digit] at found
        exact ⟨number_longest digit rest, number_means digit rest found⟩
      next notDigit =>
        rw [if_neg notDigit] at found
        split at found
        next => exact ⟨string_longest rest, string_means found⟩
        next => cases found
        next =>
          unfold Cut.comment at found
          split at found <;> cases found
        next =>
          split
          next sign spells =>
            rw [spells] at found
            exact ⟨symbol_longest spells rest, symbol_means spells found⟩
          next none =>
            rw [none] at found
            cases found

theorem ofText_not_comment {first : Char} {rest : List Char} {kind : TokenKind}
    (found : (Cut.ofText first rest).content = .token kind) :
    ¬ ['/', '/'] <+: first :: rest ∧ ¬ ['/', '*'] <+: first :: rest := by
  constructor
  · rintro ⟨after, same⟩
    cases same
    cases found
  · rintro ⟨after, same⟩
    cases same
    have comment : (Cut.comment after).content = .token kind := found
    unfold Cut.comment at comment
    split at comment <;> cases comment

theorem reserved_mem_words {name : String} (listed : name ∈ reserved) : name.toList ∈ words := by
  obtain ⟨word, rfl⟩ := mem_reserved.mp listed
  have proper : isWord word.spelling.toList = true := by cases word <;> decide
  generalize word.spelling.toList = lexeme at *
  cases lexeme with
  | nil => cases proper
  | cons first rest =>
    obtain ⟨starts, parts⟩ := Bool.and_eq_true_iff.mp proper
    refine mem_words.mpr ⟨first, mem_letters.mpr starts, rest, fun char inside => ?_, rfl⟩
    exact mem_parts.mpr (List.all_eq_true.mp parts char inside)

namespace Means

variable {lexeme : List Char} {kind : TokenKind}

theorem mem_all (means : Means lexeme kind) : lexeme ∈ all := by
  simp only [all, Language.mem_add]
  cases means with
  | keyword listed => exact .inl (.inl (.inl (reserved_mem_words listed)))
  | identifier word => exact .inl (.inl (.inl word))
  | string closed => exact .inl (.inr (mem_strings.mpr ⟨_, closed, rfl⟩))
  | number numeral => exact .inl (.inl (.inr numeral))
  | symbol => exact .inr ⟨_, rfl⟩

/-- What is a keyword or an identifier is a word, and nothing else is. -/
theorem named (means : Means lexeme kind) (word : lexeme ∈ words) :
    (∃ word, kind = .keyword word) ∨ String.ofList lexeme ∉ reserved := by
  obtain ⟨first, letter, rest, -, rfl⟩ := mem_words.mp word
  have starts := mem_letters.mp letter
  generalize same : first :: rest = lexeme at means
  cases means with
  | keyword => exact .inl ⟨_, rfl⟩
  | identifier word free => exact .inr free
  | string =>
    cases same
    cases starts
  | number numeral =>
    obtain ⟨head, tail, rfl, digit⟩ := number_begins numeral
    cases same
    exact absurd starts (Cut.not_start_of_digit digit)
  | @symbol sign =>
    obtain ⟨head, tail, sign', begun, spells⟩ := operator_begins ⟨sign, rfl⟩
    rw [begun] at same
    cases same
    rw [(sign_start spells).2.1] at starts
    cases starts

/-- Words are keywords where they are reserved. -/
theorem keyword_iff (means : Means lexeme kind) :
    (∃ word, kind = .keyword word) ↔ String.ofList lexeme ∈ reserved := by
  constructor
  · rintro ⟨word, rfl⟩
    cases means with
    | keyword listed => rwa [String.ofList_toList]
  · intro listed
    have word := reserved_mem_words listed
    rw [String.toList_ofList] at word
    exact (means.named word).resolve_right (not_not_intro listed)

end Means

end Lexeme

/-- A token at the front of a text. No lexeme there is longer, no comment begins there, and the token
is what its text says. -/
structure Token.Munches (token : Token) (text : List Char) : Prop where
  front : token.lexeme.toList <+: text
  lexeme : token.lexeme.toList ∈ Lexeme.all
  longest : ∀ other ∈ Lexeme.all, other <+: text → other.length ≤ token.lexeme.toList.length
  lineComment : ¬ ['/', '/'] <+: text
  blockComment : ¬ ['/', '*'] <+: text
  means : Lexeme.Means token.lexeme.toList token.kind
  keyword : (∃ word, token.kind = .keyword word) ↔ token.lexeme ∈ Lexeme.reserved

theorem Token.Munches.of_cut {token : Token} {first : Char} {rest : List Char}
    (found : (Cut.ofText first rest).content = .token token.kind)
    (text : token.lexeme = String.ofList (Cut.ofText first rest).lexeme) :
    token.Munches (first :: rest) := by
  obtain ⟨longest, means⟩ := Lexeme.ofText_munches found
  obtain ⟨lineComment, blockComment⟩ := Lexeme.ofText_not_comment found
  have keyword := means.keyword_iff
  have lexeme : token.lexeme.toList = (Cut.ofText first rest).lexeme := by
    rw [text, String.toList_ofList]
  rw [← text] at keyword
  rw [Lexeme.Longest, ← lexeme] at longest
  rw [← lexeme] at means
  have front := (Cut.ofText_from first rest).split
  rw [← lexeme] at front
  exact ⟨⟨_, front.symm⟩, means.mem_all, longest, lineComment, blockComment, means, keyword⟩

/-- Tokens are as long as they can be, and are what their texts say, wherever they stand in a source.
What is wrong with a source never begins with a digit, so a number is always read. -/
theorem Scan.tokens_munch (source : String) :
    (∀ token ∈ (ofSource source).tokens, token.kind ≠ .eof → ∃ before text,
      source.toList = before ++ text ∧ token.span.start = Piece.width before ∧ token.Munches text) ∧
    ∀ error ∈ (ofSource source).errors, ∀ first rest, error.lexeme.toList = first :: rest →
      first ∉ Lexeme.digits := by
  constructor
  · intro token member inner
    rcases List.mem_append.mp member with inside | last
    · obtain ⟨piece, found, some⟩ := List.mem_filterMap.mp inside
      obtain ⟨before, first, rest, split, start, content, lexeme⟩ := Piece.mem_ofSource found
      obtain ⟨kind, mark⟩ := Piece.token?_eq_some.mp some
      have text : token.lexeme = String.ofList (Cut.ofText first rest).lexeme := by
        rw [← lexeme]
        exact congrArg Mark.lexeme mark
      have place : token.span = piece.span := congrArg Mark.span mark
      exact ⟨before, first :: rest, split, place ▸ start, .of_cut (content.symm.trans kind) text⟩
    · obtain rfl := List.mem_singleton.mp last
      exact absurd rfl inner
  · intro error member first rest begins digit
    obtain ⟨piece, found, some⟩ := List.mem_filterMap.mp member
    obtain ⟨before, head, tail, -, -, content, lexeme⟩ := Piece.mem_ofSource found
    obtain ⟨fault, mark⟩ := Piece.error?_eq_some.mp some
    have text : error.lexeme = String.ofList piece.lexeme := congrArg Mark.lexeme mark
    rw [text, String.toList_ofList, lexeme] at begins
    have whole := (Cut.ofText_from head tail).split
    rw [begins] at whole
    obtain ⟨rfl, -⟩ := List.cons.inj whole
    rw [fault, Cut.ofText_digit (Lexeme.mem_digits.mp digit)] at content
    cases content

/-- A keyword that goes on is a name, and a point that no digit follows is no part of a number. -/
theorem Scan.tokens_munch_funny :
    let source := "1.funny!=="
    let kinds : List TokenKind := [.number (Number.ofDecimal ⟨1, 0⟩), .symbol .dot,
      .identifier "funny", .symbol .bangEqual, .symbol .equal, .eof]
    let token : Token := ⟨.identifier "funny", "funny", 1, ⟨2, 7⟩⟩
    (ofSource source).tokens.map Token.kind = kinds ∧ token ∈ (ofSource source).tokens ∧
      token.kind ≠ .eof ∧ ∃ before text, source.toList = before ++ text ∧
        token.span.start = Piece.width before ∧ token.Munches text := by
  intro source kinds token
  have read : (ofSource source).tokens.map Token.kind = kinds := by decide +kernel
  have member : token ∈ (ofSource source).tokens := by decide +kernel
  exact ⟨read, member, nofun, (tokens_munch source).1 token member nofun⟩

end Lox
