import Lox.Proofs.DoubleBits
import Lox.Proofs.Magnitudes
import Lox.Proofs.RunFuel
import Lox.Proofs.SourceLayout
import Mathlib.Algebra.Group.Nat.Defs

/-! Numbers are read back as they are written. What is written for the magnitude of a finite number is
one token of the same bits, and the sign in front of it is that of the number. -/

namespace Lox

namespace Decimal

/-- The digits that a decimal is written with, in front of the point and behind it. -/
structure Spelled (decimal : Decimal) (whole fraction : List Char) : Prop where
  text : decimal.text = if fraction = [] then whole else whole ++ '.' :: fraction
  filled : whole ≠ []
  wholeDigits : ∀ char ∈ whole, char.isDigit
  fractionDigits : ∀ char ∈ fraction, char.isDigit
  value : ofDigits whole fraction = decimal

theorem ofDigits_eq (whole fraction : List Char) :
    ofDigits whole fraction = ⟨Nat.ofDigitChars 10 (whole ++ fraction) 0, fraction.length⟩ := by
  simp only [ofDigits, Nat.ofDigitChars_eq_foldl, Nat.mul_comm 10]

theorem toDigits_digits (amount : Nat) : ∀ char ∈ Nat.toDigits 10 amount, char.isDigit :=
  fun _ member => Nat.isDigit_of_mem_toDigits (by decide) (by decide) member

theorem padLeft_digits (width amount : Nat) :
    ∀ char ∈ padLeft width (Nat.toDigits 10 amount), char.isDigit := by
  intro char member
  rcases List.mem_append.mp member with zero | digit
  · obtain rfl := List.eq_of_mem_replicate zero
    rfl
  · exact toDigits_digits amount char digit

section Padding

variable {width amount : Nat} (small : amount < Nat.pow 10 width) (filled : 0 < width)
include small filled

theorem toDigits_short : (Nat.toDigits 10 amount).length ≤ width :=
  (Nat.length_toDigits_le_iff (by decide) filled).mpr small

theorem padLeft_length : (padLeft width (Nat.toDigits 10 amount)).length = width := by
  have short := toDigits_short small filled
  simp [padLeft, short]

theorem padLeft_value (before : Nat) :
    Nat.ofDigitChars 10 (padLeft width (Nat.toDigits 10 amount)) before =
      Nat.pow 10 width * before + amount := by
  have short := toDigits_short small filled
  have powers : Nat.pow 10 (Nat.toDigits 10 amount).length *
      Nat.pow 10 (width - (Nat.toDigits 10 amount).length) = Nat.pow 10 width := by
    rw [Nat.pow_eq, Nat.pow_eq, ← Nat.pow_add, Nat.add_sub_cancel' short]
    rfl
  rw [padLeft, Nat.ofDigitChars_append, Nat.ofDigitChars_replicate_zero,
    Nat.ofDigitChars_eq_ofDigitChars_zero, Nat.ofDigitChars_ten_toDigits, ← Nat.mul_assoc]
  exact congrArg (· * before + amount) powers

end Padding

/-- What a decimal is written as behind a sign. -/
def signed (decimal : Decimal) (negative : Bool) : List Char :=
  (if negative then ['-'] else []) ++ decimal.text

theorem exists_spelled (decimal : Decimal) : ∃ whole fraction, decimal.Spelled whole fraction := by
  obtain ⟨digits, places⟩ := decimal
  rcases Nat.eq_zero_or_pos places with rfl | pointed
  · refine ⟨Nat.toDigits 10 digits, [], ?_, Nat.toDigits_ne_nil, toDigits_digits digits, nofun, ?_⟩
    · simp [text]
    · rw [ofDigits_eq, List.append_nil, Nat.ofDigitChars_ten_toDigits]
      rfl
  · have scale : 0 < Nat.pow 10 places := Nat.pow_pos (by decide)
    have small := Nat.mod_lt digits scale
    have length := padLeft_length small pointed
    refine ⟨Nat.toDigits 10 (digits / Nat.pow 10 places),
      padLeft places (Nat.toDigits 10 (digits % Nat.pow 10 places)), ?_, Nat.toDigits_ne_nil,
      toDigits_digits _, padLeft_digits _ _, ?_⟩
    · have filled : padLeft places (Nat.toDigits 10 (digits % Nat.pow 10 places)) ≠ [] := by
        intro none
        rw [none] at length
        exact Nat.ne_of_lt pointed length
      simp only [text]
      rw [if_neg (Nat.ne_of_gt pointed), if_neg filled]
    · rw [ofDigits_eq, Nat.ofDigitChars_append, Nat.ofDigitChars_ten_toDigits,
        padLeft_value small pointed, length, Nat.div_add_mod]

/-- What is written begins with a digit, and it is all digits but for a point. -/
theorem text_cons (decimal : Decimal) : ∃ first rest, decimal.text = first :: rest ∧
    first.isDigit ∧ ∀ char ∈ decimal.text, char.isDigit ∨ char = '.' := by
  obtain ⟨whole, fraction, text, filled, wholeDigits, fractionDigits, -⟩ := decimal.exists_spelled
  obtain ⟨first, rest, rfl⟩ := List.exists_cons_of_ne_nil filled
  have digit := wholeDigits first List.mem_cons_self
  rw [text]
  split
  · exact ⟨first, rest, rfl, digit, fun char member => .inl (wholeDigits char member)⟩
  · refine ⟨first, rest ++ '.' :: fraction, rfl, digit, fun char member => ?_⟩
    rcases List.mem_append.mp member with inside | behind
    · exact .inl (wholeDigits char inside)
    · rcases List.mem_cons.mp behind with point | inside
      · exact .inr point
      · exact .inl (fractionDigits char inside)

end Decimal

namespace Cut

/-- Text that no number goes on with. -/
def EndsNumber (rest : List Char) : Prop := ∀ char ∈ rest.head?, ¬ char.isDigit ∧ char ≠ '.'

theorem digits_append {digits rest : List Char} (all : ∀ char ∈ digits, char.isDigit)
    (ends : ∀ char ∈ rest.head?, ¬ char.isDigit) :
    (digits ++ rest).takeWhile Char.isDigit = digits ∧
      (digits ++ rest).dropWhile Char.isDigit = rest := by
  have behind : rest.takeWhile Char.isDigit = [] ∧ rest.dropWhile Char.isDigit = rest := by
    cases rest with
    | nil => exact ⟨rfl, rfl⟩
    | cons char rest =>
      have other := ends char rfl
      exact ⟨List.takeWhile_cons_of_neg other, List.dropWhile_cons_of_neg other⟩
  rw [List.takeWhile_append_of_pos all, List.dropWhile_append_of_pos all, behind.1, behind.2]
  exact ⟨List.append_nil digits, rfl⟩

/-- Digits, and some behind a point if there are any, are cut off as the number that they write. -/
theorem number_digits {whole places rest : List Char} (digits : ∀ char ∈ whole, char.isDigit)
    (fractional : ∀ char ∈ places, char.isDigit) (ends : EndsNumber rest) :
    number ((if places = [] then whole else whole ++ '.' :: places) ++ rest) =
      ⟨.token (.number (Number.ofDecimal (Decimal.ofDigits whole places))),
        if places = [] then whole else whole ++ '.' :: places, rest⟩ := by
  have stops (char : Char) (first : char ∈ rest.head?) : ¬ char.isDigit := (ends char first).1
  by_cases pointless : places = []
  · subst pointless
    obtain ⟨front, back⟩ := digits_append digits stops
    have none : fraction rest = [] := by
      unfold fraction
      split
      next => exact absurd rfl (ends '.' rfl).2
      next => rfl
    simp only [if_pos, number, front, back, none, List.isEmpty_nil]
  · have split : whole ++ '.' :: places ++ rest = whole ++ '.' :: (places ++ rest) := by simp
    have point : ∀ char ∈ ('.' :: (places ++ rest)).head?, ¬ char.isDigit := by
      intro char first
      cases first
      decide
    obtain ⟨front, back⟩ := digits_append digits point
    have same : fraction ('.' :: (places ++ rest)) = places := (digits_append fractional stops).1
    have filled : places.isEmpty = false := by simpa using pointless
    rw [if_neg pointless, number, split, front, back, same, filled]
    simp

/-- A decimal that is written out is cut off as the number that it is. -/
theorem number_text (decimal : Decimal) {rest : List Char} (ends : EndsNumber rest) :
    number (decimal.text ++ rest) =
      ⟨.token (.number (Number.ofDecimal decimal)), decimal.text, rest⟩ := by
  obtain ⟨whole, fraction, text, -, wholeDigits, fractionDigits, value⟩ := decimal.exists_spelled
  rw [text, number_digits wholeDigits fractionDigits ends, value]

end Cut

namespace Piece

variable {before : Array Piece} {offset line : Nat}

theorem collect_cut {first : Char} {text lexeme rest : List Char} {content : Content}
    (cut : Cut.ofText first text = ⟨content, lexeme, rest⟩) (inLine : '\n' ∉ lexeme) :
    collect before offset line (first :: text) =
      collect (before.push ⟨content, lexeme, line, ⟨offset, offset + width lexeme⟩⟩)
        (offset + width lexeme) line rest := by
  have none : newlines lexeme = 0 := List.count_eq_zero.mpr inLine
  rw [collect, cut, none, Nat.add_zero]

theorem collect_number (decimal : Decimal) {rest : List Char} (ends : Cut.EndsNumber rest) :
    collect before offset line (decimal.text ++ rest) =
      collect (before.push ⟨.token (.number (Number.ofDecimal decimal)), decimal.text, line,
        ⟨offset, offset + width decimal.text⟩⟩) (offset + width decimal.text) line rest := by
  obtain ⟨first, behind, text, digit, all⟩ := decimal.text_cons
  have cut : Cut.ofText first (behind ++ rest) = _ := Cut.ofText_digit digit _
  rw [← List.cons_append, ← text, Cut.number_text decimal ends] at cut
  have inLine : '\n' ∉ decimal.text := by
    intro member
    rcases all '\n' member with wrong | wrong <;> contradiction
  rw [← collect_cut cut inLine, ← List.cons_append, text]

end Piece

namespace Number

variable {number other : Float}

theorem text_finite (finite : number.isFinite) : text number =
    String.ofList ((Decimal.canonical (magnitude number)).signed (isNegative number)) := by
  have small := isFinite_iff.mp finite
  simp only [text, Decimal.signed]
  rw [if_neg (Nat.not_lt_of_lt small), if_neg (Nat.ne_of_lt small)]
  split <;> rfl

theorem toBits_ofMagnitude {size : Nat} (number : size ≤ Double.infinity) :
    (Float.ofBits size.toUInt64).toBits.toNat = size := by
  have infinity : Double.infinity < Nat.pow 2 63 := by decide
  have width : Nat.pow 2 63 < 2 ^ 64 := by decide
  have bits : size.toUInt64.toNat = size := Nat.mod_eq_of_lt (by omega)
  have number' : size.toUInt64.toNat % Nat.pow 2 63 ≤ Double.infinity := by
    rw [bits, Nat.mod_eq_of_lt (by omega)]
    exact number
  rw [toBits_ofBits number', bits]

theorem isNegative_ofDecimal (decimal : Decimal) : isNegative (ofDecimal decimal) = false := by
  have infinity : Double.infinity < Nat.pow 2 63 := by decide
  rw [isNegative, ofDecimal, toBits_ofMagnitude decimal.nearest_le]
  exact decide_eq_false (Nat.not_le_of_lt (Nat.lt_of_le_of_lt decimal.nearest_le infinity))

/-- The decimal that is written for a finite number is read as one of the same bits but the sign. -/
theorem magnitude_canonical (finite : number.isFinite) :
    (ofDecimal (Decimal.canonical (magnitude number))).toBits.toNat = magnitude number := by
  have small := isFinite_iff.mp finite
  rw [ofDecimal, Decimal.nearest_canonical small]
  exact toBits_ofMagnitude (Nat.le_of_lt small)

/-- Finite numbers that are written alike are the same. -/
theorem text_injective (finite : number.isFinite) (finite' : other.isFinite)
    (same : text number = text other) : number = other := by
  rw [text_finite finite, text_finite finite', String.ofList_inj, Decimal.signed,
    Decimal.signed] at same
  obtain ⟨first, rest, text, digit, -⟩ := (Decimal.canonical (magnitude number)).text_cons
  obtain ⟨first', rest', text', digit', -⟩ := (Decimal.canonical (magnitude other)).text_cons
  have sign : isNegative number = isNegative other := by
    rw [text, text'] at same
    cases negative : isNegative number <;> cases negative' : isNegative other
    · rfl
    · simp only [negative, negative', Bool.false_eq_true, if_true, if_false] at same
      rw [(List.cons.inj same).1] at digit
      contradiction
    · simp only [negative, negative', Bool.false_eq_true, if_true, if_false] at same
      rw [← (List.cons.inj same).1] at digit'
      contradiction
    · rfl
  rw [sign] at same
  have digits := List.append_cancel_left same
  have nothing : Cut.EndsNumber [] := nofun
  have cut := Cut.number_text (Decimal.canonical (magnitude number)) nothing
  rw [digits, Cut.number_text _ nothing] at cut
  have values := TokenKind.number.inj (Content.token.inj (Cut.mk.inj cut).1)
  have sizes := congrArg (fun value => value.toBits.toNat) values
  simp only [magnitude_canonical finite, magnitude_canonical finite'] at sizes
  exact eq_of_magnitude sizes.symm sign

end Number

theorem Scan.ofSource_decimal (decimal : Decimal) : Scan.ofSource (String.ofList decimal.text) =
    ⟨[⟨.number (Number.ofDecimal decimal), String.ofList decimal.text, 1,
      ⟨0, (String.ofList decimal.text).utf8ByteSize⟩⟩,
      .endOfInput 1 (String.ofList decimal.text).utf8ByteSize], []⟩ := by
  have nothing : Cut.EndsNumber [] := nofun
  have pieces : Piece.collect #[] 0 1 (decimal.text ++ []) = Piece.collect _ _ _ [] :=
    Piece.collect_number decimal nothing
  rw [List.append_nil, Piece.collect] at pieces
  have inLine : Piece.newlines decimal.text = 0 := by
    obtain ⟨-, -, -, -, all⟩ := decimal.text_cons
    apply List.count_eq_zero.mpr
    intro member
    rcases all '\n' member with wrong | wrong <;> contradiction
  simp only [Scan.ofSource, Piece.ofSource, String.toList_ofList, pieces, inLine, Piece.size_ofList]
  simp [Piece.token?, Piece.error?]


section Printing

variable (decimal : Decimal)

/-- The statement that prints a number. -/
def Decimal.printed (negative : Bool) : String :=
  "print " ++ String.ofList (decimal.signed negative) ++ ";"

theorem Scan.kinds_printed (negative : Bool) :
    (Scan.ofSource (decimal.printed negative)).tokens.map Token.kind =
      .keyword .printWord :: (if negative then [.symbol .minus] else []) ++
        [.number (Number.ofDecimal decimal), .symbol .semicolon, .eof] ∧
      (Scan.ofSource (decimal.printed negative)).errors = [] := by
  have word (more : List Char) : Cut.ofText 'p' ('r' :: 'i' :: 'n' :: 't' :: ' ' :: more) =
    ⟨.token (.keyword .printWord), "print".toList, ' ' :: more⟩ := rfl
  have blank (more : List Char) : Cut.ofText ' ' more = ⟨.blank, [' '], more⟩ := rfl
  have minus (more : List Char) : Cut.ofText '-' more = ⟨.token (.symbol .minus), ['-'], more⟩ := rfl
  have semicolon : Cut.ofText ';' [] = ⟨.token (.symbol .semicolon), [';'], []⟩ := rfl
  have ends : Cut.EndsNumber [';'] := by
    intro char first
    cases first
    decide
  have opened : "print ".toList = ['p', 'r', 'i', 'n', 't', ' '] := rfl
  have closed : ";".toList = [';'] := rfl
  simp only [Scan.ofSource, Piece.ofSource, Decimal.printed, Decimal.signed, String.toList_append,
    String.toList_ofList, opened, closed, List.append_assoc, List.cons_append, List.nil_append]
  cases negative
  · simp only [Bool.false_eq_true, if_false, List.nil_append]
    rw [Piece.collect_cut (word _) (by decide), Piece.collect_cut (blank _) (by decide),
      Piece.collect_number decimal ends, Piece.collect_cut semicolon (by decide), Piece.collect]
    exact ⟨rfl, rfl⟩
  · simp only [if_true, List.cons_append, List.nil_append]
    rw [Piece.collect_cut (word _) (by decide), Piece.collect_cut (blank _) (by decide),
      Piece.collect_cut (minus _) (by decide), Piece.collect_number decimal ends,
      Piece.collect_cut semicolon (by decide), Piece.collect]
    exact ⟨rfl, rfl⟩

/-- The signed number that a decimal with or without a minus sign in front denotes. -/
def Decimal.value (negative : Bool) : Float :=
  if negative then -Number.ofDecimal decimal else Number.ofDecimal decimal

theorem Program.ofSource_printed (negative : Bool) : ∃ place expr,
    Program.ofSource (decimal.printed negative) = .ok [.print place expr] ∧
      ∀ settings scope machine, Interpreter.evaluate settings scope 2 expr machine =
        .ok (.number (decimal.value negative)) machine := by
  obtain ⟨kinds, lexed⟩ := Scan.kinds_printed decimal negative
  cases negative
  · simp only [Bool.false_eq_true, if_false, List.cons_append, List.nil_append,
      List.map_eq_cons_iff, List.map_eq_nil_iff] at kinds
    obtain ⟨⟨_, _, _, _⟩, _, found, rfl, ⟨_, _, _, _⟩, _, rfl, rfl, ⟨_, _, _, _⟩, _, rfl, rfl,
      ⟨_, _, _, _⟩, _, rfl, rfl, rfl⟩ := kinds
    simp only [Program.ofSource_eq_ok, lexed, found]
    exact ⟨_, _, ⟨trivial, rfl, rfl⟩, fun _ _ _ => rfl⟩
  · simp only [if_true, List.cons_append, List.nil_append, List.map_eq_cons_iff,
      List.map_eq_nil_iff] at kinds
    obtain ⟨⟨_, _, _, _⟩, _, found, rfl, ⟨_, _, _, _⟩, _, rfl, rfl, ⟨_, _, _, _⟩, _, rfl, rfl,
      ⟨_, _, _, _⟩, _, rfl, rfl, ⟨_, _, _, _⟩, _, rfl, rfl, rfl⟩ := kinds
    simp only [Program.ofSource_eq_ok, lexed, found]
    exact ⟨_, _, ⟨trivial, rfl, rfl⟩, fun _ _ _ => rfl⟩

end Printing

namespace Number

variable {number : Float}

/-- A number is what its text stands for, the minus sign being an operator. -/
theorem value_canonical (finite : number.isFinite) :
    (Decimal.canonical (magnitude number)).value (isNegative number) = number := by
  have small := isFinite_iff.mp finite
  have bits := magnitude_canonical finite
  have infinity : Double.infinity < Nat.pow 2 63 := by decide
  have low : (ofDecimal (Decimal.canonical (magnitude number))).toBits.toNat < Nat.pow 2 63 := by
    rw [bits]
    exact Nat.lt_trans small infinity
  have size : magnitude (ofDecimal (Decimal.canonical (magnitude number))) = magnitude number :=
    (Nat.mod_eq_of_lt low).trans bits
  have positive : isNegative (ofDecimal (Decimal.canonical (magnitude number))) = false :=
    decide_eq_false (Nat.not_le_of_lt low)
  have bounded : magnitude (ofDecimal (Decimal.canonical (magnitude number))) ≤ Double.infinity := by
    rw [size]
    exact Nat.le_of_lt small
  cases sign : isNegative number
  · exact eq_of_magnitude size (positive.trans sign.symm)
  · apply eq_of_magnitude
    · exact (magnitude_neg bounded).trans size
    · rw [sign]
      exact (isNegative_neg bounded).trans (by rw [positive]; rfl)

theorem prints_itself (finite : number.isFinite) (session : Session) : ∃ after,
    session.Yields ("print " ++ text number ++ ";") ⟨[], text number ++ "\n", after⟩ := by
  obtain ⟨place, expr, parsed, evaluates⟩ := Program.ofSource_printed
    (Decimal.canonical (magnitude number)) (isNegative number)
  rw [value_canonical finite] at evaluates
  have executed (machine : Machine) :
      Interpreter.execute session.settings session.globals 3 (.print place expr) machine =
        .ok .normal { machine with printed := machine.printed.push (text number) } :=
    Sequencing.bind_ok (evaluates session.settings session.globals machine)
  have ran : session.interpret 3 [.print place expr] = .ok ⟨.ok (), text number ++ "\n",
      { session with machine := { session.machine with printed := #[text number] } }⟩ := by
    apply Session.perform_eq_ok.mpr
    refine ⟨_, Sequencing.bind_ok (executed _), ?_, rfl⟩
    simp [Session.printedText]
  rw [text_finite finite] at ran ⊢
  exact ⟨_, 3, (Session.run_accepted parsed).mpr ⟨_, ran, rfl⟩⟩

/-- What is written for a finite number is a minus sign just when its sign bit is set, and then one
token, of the bits of its magnitude. No other finite number is written so, and to print what is
written writes it again. -/
theorem text_reads_back (number : Float) (finite : number.isFinite) : ∃ digits value,
    text number = (if isNegative number then "-" else "") ++ digits ∧
      Scan.ofSource digits = ⟨[⟨.number value, digits, 1, ⟨0, digits.utf8ByteSize⟩⟩,
        .endOfInput 1 digits.utf8ByteSize], []⟩ ∧
      value.toBits.toNat = magnitude number ∧
      (∀ other : Float, other.isFinite → text other = text number → other = number) ∧
      ∀ session : Session, ∃ after,
        session.Yields ("print " ++ text number ++ ";") ⟨[], text number ++ "\n", after⟩ := by
  refine ⟨String.ofList (Decimal.canonical (magnitude number)).text,
    ofDecimal (Decimal.canonical (magnitude number)), ?_, Scan.ofSource_decimal _,
    magnitude_canonical finite, fun other finite' same => text_injective finite' finite same,
    prints_itself finite⟩
  rw [text_finite finite, Decimal.signed, String.ofList_append]
  cases isNegative number <;> rfl

/-- The double that is nearest to a tenth, with its sign bit set. -/
theorem text_reads_back_negative_tenth :
    let number := Float.ofBits 0xBFB999999999999A
    number.isFinite ∧ text number = "-0.1" ∧
      ∃ after, (Session.start ⟨none, Session.steadyClock⟩).Yields "print -0.1;" ⟨[], "-0.1\n", after⟩ := by
  intro number
  have finite : number.isFinite := by decide +kernel
  have written : text number = "-0.1" := by decide +kernel
  obtain ⟨-, -, -, -, -, -, prints⟩ := text_reads_back number finite
  rw [written] at prints
  exact ⟨finite, written, prints _⟩

end Number

end Lox
