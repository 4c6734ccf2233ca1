import Lox.Proofs.CheckedAccess
import Mathlib.Data.List.Forall2

/-! Scanning a source by byte offsets. The kinds of tokens carry names in place of texts. Under the
bound on sources nothing is out of reach, and the tokens read as those of the scan into pieces. -/

namespace Lox.Flat

/-- What a token can be, with names for what was written. -/
inductive Kind where
  | symbol (sign : Symbol)
  | identifier (name : Name)
  | string (contents : Name)
  | number (value : Float)
  | keyword (word : Keyword)
  | eof

structure Item where
  kind : Kind
  lexeme : Name
  line : Nat
  span : Span

/-- Where a text first has a pattern that is not empty. -/
def find? (pattern : List Char) : List Char → Option Nat
  | [] => none
  | char :: text =>
    if pattern.isPrefixOf (char :: text) then some 0
    else (find? pattern text).map (char.utf8Size + ·)

/-- Moves the end of a piece on. It stays within the text and between characters. -/
def bump (text : List Char) (stop more : Nat) : Checked Nat := do
  let _ ← behind text (stop + more)
  return stop + more

/-- The end of a number whose whole digits end at an offset. -/
def numberEnd (text : List Char) (stop : Nat) : Checked Nat := do
  match ← behind text stop with
  | '.' :: digit :: rest =>
    if digit.isDigit then
      let places ← behind ('.' :: digit :: rest) 1
      bump text stop (1 + (places.takeWhile Char.isDigit).length)
    else return stop
  | _ => return stop

/-- The end of what runs up to a pattern, or to the end of the text if the pattern is nowhere. -/
def endThrough (pattern text : List Char) (stop : Nat) : Checked Nat := do
  let rest ← behind text stop
  match find? pattern rest with
  | some found => bump text stop (found + Piece.width pattern)
  | none => bump text stop (Piece.width rest)

/-- The end of the first piece of a text that is not empty. Numbers, strings and block comments are
read by hand, once their beginning is matched. -/
def pieceEnd (first : Char) (rest : List Char) : Checked Nat :=
  let text := first :: rest
  if first.isDigit then numberEnd text (Piece.width (text.takeWhile Char.isDigit))
  else
    match first, rest with
    | '"', _ => endThrough ['"'] text 1
    | '/', '*' :: _ => endThrough ['*', '/'] text 2
    | _, _ => return Piece.width (Cut.ofText first rest).lexeme

/-- A text without its first and its last byte. -/
def inside (text : List Char) : Checked (List Char) :=
  if 1 ≤ Piece.width text then slice text 1 (Piece.width text - 1) else .error .counter

/-- The kind of a token, for which what is written is taken from its lexeme. -/
def convert (lexeme : List Char) : TokenKind → Naming Kind
  | .symbol sign => return .symbol sign
  | .identifier _ => return .identifier (← intern (String.ofList lexeme))
  | .string _ => do
    let contents ← inside lexeme
    return .string (← intern (String.ofList contents))
  | .number value => return .number value
  | .keyword word => return .keyword word
  | .eof => return .eof

def spanOf (start stop : Nat) : Checked Span :=
  match Span.ofRange start stop with
  | .ok span => .ok span
  | .error _ => .error .counter

structure Lexed where
  items : Array Item
  errors : Array LexError

/-- What a piece with its text, its line and its span adds. -/
def addPiece (content : Content) (lexeme : List Char) (line : Nat) (span : Span) (lexed : Lexed) :
    Naming Lexed :=
  match content with
  | .blank => return lexed
  | .token kind => do
    let kind ← convert lexeme kind
    let name ← intern (String.ofList lexeme)
    return { lexed with items := lexed.items.push ⟨kind, name, line, span⟩ }
  | .fault fault =>
    return { lexed with errors := lexed.errors.push ⟨fault, String.ofList lexeme, line, span⟩ }

/-- The pieces of the text that starts at an offset on a line. -/
def scanFrom (lexed : Lexed) (offset line : Nat) : List Char → Naming (Lexed × Nat)
  | [] => return (lexed, line)
  | first :: text => do
    let stop ← pieceEnd first text
    let lexeme ← front (first :: text) stop
    let line ← fits Span.maxOffset (line + Piece.newlines lexeme % (Span.maxOffset + 1))
    let span ← spanOf offset (offset + stop)
    let lexed ← addPiece (Cut.ofText first text).content lexeme line span lexed
    let rest ← behind (first :: text) stop
    if _shorter : rest.length ≤ text.length then scanFrom lexed (offset + stop) line rest
    else throw .slice
termination_by text => text.length

def scan (source : List Char) : Naming Lexed := do
  let (lexed, line) ← scanFrom ⟨#[], #[]⟩ 0 1 source
  let stop ← fits Span.maxOffset (Piece.width source)
  return { lexed with items := lexed.items.push ⟨.eof, ⟨0, 0⟩, line, .point stop⟩ }

theorem find?_quote (text : List Char) : find? ['"'] text =
    if text.dropWhile (· != '"') = [] then none
    else some (Piece.width (text.takeWhile (· != '"'))) := by
  induction text with
  | nil => rfl
  | cons char text ih =>
    by_cases quote : char = '"'
    · subst quote
      simp [find?, Piece.width]
    · have apart : ('"' == char) = false := by simpa using Ne.symm quote
      have runs : (char != '"') = true := by simpa using quote
      simp only [find?, List.isPrefixOf, apart, Bool.false_and, Bool.false_eq_true, if_false, ih,
        List.dropWhile_cons, List.takeWhile_cons, runs, if_true, width_cons]
      split <;> rfl

theorem find?_comment (passed text : List Char) :
    match Cut.closeComment? passed text with
    | some (lexeme, _) => ∃ body, find? ['*', '/'] text = some (Piece.width body) ∧
        lexeme = passed.reverse ++ body ++ ['*', '/']
    | none => find? ['*', '/'] text = none := by
  fun_induction Cut.closeComment? passed text with
  | case1 passed rest => exact ⟨[], by simp [find?, Piece.width], by simp⟩
  | case2 passed char rest open' ih =>
    have apart : List.isPrefixOf ['*', '/'] (char :: rest) = false := by
      rw [Bool.eq_false_iff, Ne, List.isPrefixOf_iff_prefix]
      rintro ⟨after, same⟩
      obtain ⟨rfl, rfl⟩ := List.cons.inj same
      exact open' after rfl rfl
    simp only [find?, apart, Bool.false_eq_true, if_false]
    cases closed : Cut.closeComment? (char :: passed) rest with
    | none =>
      rw [closed] at ih
      rw [ih]
      rfl
    | some cut =>
      rw [closed] at ih
      obtain ⟨body, found, lexeme⟩ := ih
      exact ⟨char :: body, by rw [found, width_cons]; rfl, by simpa using lexeme⟩
  | case3 => rfl

theorem bump_append (first second third : List Char) :
    bump (first ++ (second ++ third)) (Piece.width first) (Piece.width second) =
      .ok (Piece.width (first ++ second)) := by
  rw [bump, ← Piece.width_append, ← List.append_assoc, behind_append]
  rfl

theorem digit_size {char : Char} (digit : char.isDigit = true) : char.utf8Size = 1 := by
  have low : char.val.toNat ≤ 57 := by
    simp only [Char.isDigit, Bool.and_eq_true, decide_eq_true_eq] at digit
    exact digit.2
  rw [Char.utf8Size, if_pos]
  exact UInt32.le_iff_toNat_le.mpr (Nat.le_trans low (by decide))

theorem width_digits {digits : List Char} (all : digits.all Char.isDigit) :
    Piece.width digits = digits.length := by
  induction digits with
  | nil => rfl
  | cons digit digits ih =>
    simp only [List.all_cons, Bool.and_eq_true] at all
    rw [width_cons, digit_size all.1, ih all.2, List.length_cons, Nat.add_comm]

theorem endThrough_append (front : List Char) {pattern text body rest : List Char}
    (found : find? pattern text = some (Piece.width body)) (split : text = body ++ pattern ++ rest) :
    endThrough pattern (front ++ text) (Piece.width front) =
      .ok (Piece.width (front ++ body ++ pattern)) := by
  rw [endThrough, behind_append]
  simp only [bind, Except.bind, found]
  rw [split, ← Piece.width_append, bump_append, List.append_assoc]

theorem endThrough_open (front : List Char) {pattern text : List Char} (missing : find? pattern text = none) :
    endThrough pattern (front ++ text) (Piece.width front) = .ok (Piece.width (front ++ text)) := by
  have reached := bump_append front text []
  rw [List.append_nil] at reached
  rw [endThrough, behind_append]
  simpa only [bind, Except.bind, missing] using reached

theorem stringEnd (rest : List Char) : endThrough ['"'] ('"' :: rest) 1 =
    .ok (Piece.width (Cut.string rest).lexeme) := by
  have found := find?_quote rest
  have whole : rest.takeWhile (· != '"') ++ rest.dropWhile (· != '"') = rest :=
    List.takeWhile_append_dropWhile
  unfold Cut.string
  split
  next quote after left =>
    obtain rfl := Cut.closing_quote left
    rw [left] at found whole
    have split : rest = rest.takeWhile (· != '"') ++ ['"'] ++ after := by simpa using whole.symm
    exact endThrough_append ['"'] found split
  next left =>
    rw [left] at found whole
    rw [List.append_nil] at whole
    rw [whole]
    exact endThrough_open ['"'] found

theorem commentEnd (rest : List Char) : endThrough ['*', '/'] ('/' :: '*' :: rest) 2 =
    .ok (Piece.width (Cut.comment rest).lexeme) := by
  have found := find?_comment ['*', '/'] rest
  unfold Cut.comment
  split
  next lexeme after closed =>
    rw [closed] at found
    obtain ⟨body, found, rfl⟩ := found
    obtain ⟨front, split, same, -⟩ := Cut.closeComment?_split closed
    obtain rfl : body = front := by simpa using same
    have split : rest = body ++ ['*', '/'] ++ after := by simpa using split
    exact endThrough_append ['/', '*'] found split
  next closed =>
    rw [closed] at found
    exact endThrough_open ['/', '*'] found

theorem numberEnd_eq (text : List Char) :
    numberEnd text (Piece.width (text.takeWhile Char.isDigit)) =
      .ok (Piece.width (Cut.number text).lexeme) := by
  have whole : text.takeWhile Char.isDigit ++ text.dropWhile Char.isDigit = text :=
    List.takeWhile_append_dropWhile
  have reached := behind_append (text.takeWhile Char.isDigit) (text.dropWhile Char.isDigit)
  rw [whole] at reached
  simp only [numberEnd, reached, Cut.number, bind, Except.bind]
  split
  next digit rest left =>
    rw [left] at whole ⊢
    split
    next isDigit =>
      have one : behind ('.' :: digit :: rest) 1 = .ok (digit :: rest) :=
        behind_append ['.'] (digit :: rest)
      have places : Cut.fraction ('.' :: digit :: rest) = digit :: rest.takeWhile Char.isDigit := by
        simp [Cut.fraction, isDigit]
      have width : Piece.width ('.' :: digit :: rest.takeWhile Char.isDigit) =
          1 + ((digit :: rest).takeWhile Char.isDigit).length := by
        have digits : (digit :: rest.takeWhile Char.isDigit).all Char.isDigit := by
          simp [isDigit]
        rw [width_cons, width_digits digits, List.takeWhile_cons_of_pos isDigit]
        rfl
      have split : text = text.takeWhile Char.isDigit ++
          ('.' :: digit :: rest.takeWhile Char.isDigit ++ rest.dropWhile Char.isDigit) := by
        simpa [List.takeWhile_append_dropWhile] using whole.symm
      have moved := bump_append (text.takeWhile Char.isDigit)
        ('.' :: digit :: rest.takeWhile Char.isDigit) (rest.dropWhile Char.isDigit)
      rw [← split, width] at moved
      simpa only [one, places, List.isEmpty_cons, Bool.false_eq_true, if_false] using moved
    next noDigit =>
      have none : Cut.fraction ('.' :: digit :: rest) = [] := by simp [Cut.fraction, noDigit]
      rw [none]
      rfl
  next other =>
    have none : Cut.fraction (text.dropWhile Char.isDigit) = [] := by
      unfold Cut.fraction
      split
      next rest left =>
        cases rest with
        | nil => rfl
        | cons digit rest => exact absurd left (other digit rest)
      next => rfl
    rw [none]
    rfl

theorem pieceEnd_eq (first : Char) (rest : List Char) :
    pieceEnd first rest = .ok (Piece.width (Cut.ofText first rest).lexeme) := by
  unfold pieceEnd
  split
  next digit =>
    rw [Cut.ofText_digit digit]
    exact numberEnd_eq (first :: rest)
  next =>
    split
    · exact stringEnd rest
    · exact commentEnd _
    · rfl

/-- What a token carries is written in its lexeme. -/
inductive Spells : TokenKind → List Char → Prop where
  | symbol : Spells (.symbol sign) lexeme
  | identifier : Spells (.identifier (String.ofList lexeme)) lexeme
  | string : Spells (.string (String.ofList contents)) ('"' :: (contents ++ ['"']))
  | number : Spells (.number value) lexeme
  | keyword : Spells (.keyword word) lexeme

def Spelled (cut : Cut) : Prop := ∀ kind, cut.content = .token kind → Spells kind cut.lexeme

theorem word_spelled (text : List Char) : Spelled (Cut.word text) := by
  intro kind token
  unfold Cut.word at token ⊢
  obtain rfl := Content.token.inj token
  split
  · exact .keyword
  · exact .identifier

theorem string_spelled (text : List Char) : Spelled (Cut.string text) := by
  intro kind token
  unfold Cut.string at token ⊢
  split at token
  next quote after left =>
    obtain rfl := Cut.closing_quote left
    obtain rfl := Content.token.inj token
    exact .string
  next => cases token

theorem ofText_spelled (first : Char) (rest : List Char) : Spelled (Cut.ofText first rest) := by
  unfold Cut.ofText
  split
  · exact nofun
  split
  · exact word_spelled _
  split
  · intro kind token
    obtain rfl := Content.token.inj token
    exact .number
  split
  · exact string_spelled _
  · exact nofun
  · intro kind token
    unfold Cut.comment at token
    split at token <;> cases token
  · split
    · intro kind token
      unfold Cut.symbol at token
      split at token <;> obtain rfl := Content.token.inj token <;> exact .symbol
    · exact nofun

inductive Kind.Reads (interner : Interner) : Kind → TokenKind → Prop where
  | symbol : Reads interner (.symbol sign) (.symbol sign)
  | identifier (gave : interner.Gave name text) : Reads interner (.identifier name) (.identifier text)
  | string (gave : interner.Gave name text) : Reads interner (.string name) (.string text)
  | number : Reads interner (.number value) (.number value)
  | keyword : Reads interner (.keyword word) (.keyword word)
  | eof : Reads interner .eof .eof

/-- The end of the input shows no lexeme. -/
structure Item.Reads (interner : Interner) (item : Item) (token : Token) : Prop where
  kind : item.kind.Reads interner token.kind
  lexeme : token.kind ≠ .eof → interner.Gave item.lexeme token.lexeme
  line : item.line = token.line
  span : item.span = token.span

variable {first second interner : Interner}

theorem Kind.Reads.mono {kind : Kind} {other : TokenKind} (reads : kind.Reads first other)
    (grows : first.GrowsTo second) : kind.Reads second other := by
  cases reads with
  | identifier gave => exact .identifier (gave.mono grows)
  | string gave => exact .string (gave.mono grows)
  | symbol => exact .symbol
  | number => exact .number
  | keyword => exact .keyword
  | eof => exact .eof

theorem Item.Reads.mono {item : Item} {token : Token} (reads : item.Reads first token)
    (grows : first.GrowsTo second) : item.Reads second token :=
  ⟨reads.kind.mono grows, fun other => (reads.lexeme other).mono grows, reads.line, reads.span⟩

theorem inside_quotes (contents : List Char) :
    inside ('"' :: (contents ++ ['"'])) = .ok contents := by
  have size : Piece.width ('"' :: (contents ++ ['"'])) = 1 + Piece.width contents + 1 := by
    rw [width_cons, Piece.width_append, ← Nat.add_assoc]
    rfl
  rw [inside, size, if_pos (Nat.le_add_left _ _), Nat.add_sub_cancel]
  exact slice_append ['"'] contents ['"']

theorem convert_issues {kind : TokenKind} {lexeme : List Char} (spells : Spells kind lexeme)
    (interner : Interner) :
    Issues (convert lexeme kind) interner fun converted after => converted.Reads after kind := by
  cases spells with
  | symbol => exact .pure .symbol
  | number => exact .pure .number
  | keyword => exact .pure .keyword
  | identifier =>
    exact (intern_issues _ interner).bind fun _ _ _ gave => .pure (.identifier gave)
  | string =>
    refine .reach (inside_quotes _) ((intern_issues _ interner).bind ?_)
    exact fun _ _ _ gave => .pure (.string gave)

/-- The tokens and the faults are those of the pieces. -/
structure Lexed.Reads (interner : Interner) (lexed : Lexed) (pieces : List Piece) : Prop where
  items : List.Forall₂ (Item.Reads interner) lexed.items.toList (pieces.filterMap Piece.token?)
  errors : lexed.errors.toList = pieces.filterMap Piece.error?

theorem Lexed.Reads.mono {lexed : Lexed} {pieces : List Piece} (reads : lexed.Reads first pieces)
    (grows : first.GrowsTo second) : lexed.Reads second pieces :=
  ⟨reads.items.imp fun _ _ item => item.mono grows, reads.errors⟩

theorem addPiece_issues {lexed : Lexed} {pieces : List Piece} (reads : lexed.Reads interner pieces)
    (piece : Piece) (spelled : ∀ kind, piece.content = .token kind → Spells kind piece.lexeme) :
    Issues (addPiece piece.content piece.lexeme piece.line piece.span lexed) interner
      fun lexed after => lexed.Reads after (pieces ++ [piece]) := by
  cases content : piece.content with
  | blank =>
    have token : piece.token? = none := by simp [Piece.token?, content]
    have error : piece.error? = none := by simp [Piece.error?, content]
    refine .pure ⟨?_, ?_⟩
    · simpa [token] using reads.items
    · simpa [error] using reads.errors
  | fault fault =>
    have token : piece.token? = none := by simp [Piece.token?, content]
    have error : piece.error? = some ⟨fault, String.ofList piece.lexeme, piece.line, piece.span⟩ := by
      simp [Piece.error?, content]
    refine .pure ⟨?_, ?_⟩
    · simpa [token] using reads.items
    · simpa [error] using reads.errors
  | token kind =>
    have token : piece.token? = some ⟨kind, String.ofList piece.lexeme, piece.line, piece.span⟩ := by
      simp [Piece.token?, content]
    have error : piece.error? = none := by simp [Piece.error?, content]
    refine (convert_issues (spelled kind content) interner).bind fun converted _ grows read => ?_
    refine (intern_issues _ _).bind fun name after further gave => .pure ?_
    have before := reads.mono (grows.trans further)
    have item : Item.Reads after ⟨converted, name, piece.line, piece.span⟩
        ⟨kind, String.ofList piece.lexeme, piece.line, piece.span⟩ :=
      ⟨read.mono further, fun _ => gave, rfl, rfl⟩
    constructor
    · simpa [token] using List.rel_append before.items (.cons item .nil)
    · simpa [error] using before.errors

theorem spanOf_ok {start stop : Nat} (order : start ≤ stop) (small : stop ≤ Span.maxOffset) :
    spanOf start stop = .ok ⟨start, stop⟩ := by
  rw [spanOf, Span.ofRange, if_neg (by omega), if_neg (by omega)]

/-- A text whose offsets and lines can be counted. -/
structure Countable (text : List Char) : Prop where
  offsets : Piece.width text ≤ Span.maxOffset
  lines : 1 + Piece.newlines text ≤ Span.maxOffset

namespace Countable

variable {passed lexeme rest : List Char} (small : Countable (passed ++ lexeme ++ rest))
include small

/-- The lines of a piece are counted without wrapping around. -/
theorem newlines_mod :
    Piece.newlines lexeme % (Span.maxOffset + 1) = Piece.newlines lexeme := by
  have below := small.lines
  rw [Piece.newlines_append, Piece.newlines_append] at below
  exact Nat.mod_eq_of_lt (by omega)

theorem fits_line : fits Span.maxOffset (1 + Piece.newlines passed + Piece.newlines lexeme) =
    .ok (1 + Piece.newlines passed + Piece.newlines lexeme) := by
  have below := small.lines
  rw [Piece.newlines_append, Piece.newlines_append] at below
  exact fits_ok (by omega)

theorem spanOf_piece : spanOf (Piece.width passed) (Piece.width passed + Piece.width lexeme) =
    .ok ⟨Piece.width passed, Piece.width passed + Piece.width lexeme⟩ := by
  have within := small.offsets
  rw [Piece.width_append, Piece.width_append] at within
  exact spanOf_ok (Nat.le_add_right _ _) (by omega)

end Countable

/-- The scan goes on behind text that has been passed, and gives the pieces that are cut from there. -/
theorem scanFrom_issues {lexed : Lexed} {before : Array Piece} (passed text : List Char)
    (reads : lexed.Reads interner before.toList) (small : Countable (passed ++ text)) :
    Issues (scanFrom lexed (Piece.width passed) (1 + Piece.newlines passed) text) interner
      fun scanned after => scanned.1.Reads after (Piece.collect before (Piece.width passed)
        (1 + Piece.newlines passed) text).toList ∧
          scanned.2 = 1 + Piece.newlines (passed ++ text) := by
  -- A piece may take several characters, so the induction is on the length of the text.
  generalize size : text.length = length
  induction length using Nat.strongRecOn generalizing interner lexed before passed text with
  | ind length ih =>
    cases text with
    | nil =>
      rw [scanFrom, Piece.collect, List.append_nil]
      exact .pure ⟨reads, rfl⟩
    | cons first text =>
      obtain ⟨split, -, -⟩ := Cut.ofText_from first text
      have shorter := Cut.ofText_rest_length first text
      have spelled := ofText_spelled first text
      have stop := pieceEnd_eq first text
      rw [scanFrom, Piece.collect]
      generalize Cut.ofText first text = cut at *
      obtain ⟨content, lexeme, rest⟩ := cut
      simp only at *
      have text' : passed ++ first :: text = passed ++ lexeme ++ rest := by
        rw [split, List.append_assoc]
      rw [text'] at small ⊢
      have cutFront : front (first :: text) (Piece.width lexeme) = .ok lexeme := by
        rw [split, front_append]
      have cutBehind : behind (first :: text) (Piece.width lexeme) = .ok rest := by
        rw [split, behind_append]
      refine .reach stop (.reach cutFront ?_)
      rw [small.newlines_mod]
      refine .reach small.fits_line (.reach small.spanOf_piece ?_)
      refine (addPiece_issues reads ⟨content, lexeme, 1 + Piece.newlines passed + Piece.newlines lexeme,
        ⟨Piece.width passed, Piece.width passed + Piece.width lexeme⟩⟩ spelled).bind
          fun lexed middle _ added => .reach cutBehind ?_
      rw [dif_pos shorter, Nat.add_assoc, ← Piece.newlines_append, ← Piece.width_append]
      have fewer : rest.length < length := by
        rw [← size]
        exact Nat.lt_succ_of_le shorter
      have reads' : lexed.Reads middle (before.push ⟨content, lexeme,
          1 + Piece.newlines (passed ++ lexeme),
            ⟨Piece.width passed, Piece.width (passed ++ lexeme)⟩⟩).toList := by
        rw [Array.toList_push, Piece.newlines_append, Piece.width_append, ← Nat.add_assoc]
        exact added
      exact ih rest.length fewer (passed ++ lexeme) rest reads' small rfl

/-- The scan of a source ends, and reaches for nothing that is not there. -/
theorem scan_issues {source : String} (small : Countable source.toList)
    (interner : Interner) : Issues (scan source.toList) interner fun lexed after =>
      List.Forall₂ (Item.Reads after) lexed.items.toList (Scan.ofSource source).tokens ∧
        lexed.errors.toList = (Scan.ofSource source).errors := by
  have nothing : Lexed.Reads interner ⟨#[], #[]⟩ #[].toList := ⟨.nil, rfl⟩
  refine (scanFrom_issues [] source.toList nothing small).bind fun scanned after _ holds => ?_
  obtain ⟨lexed, line⟩ := scanned
  obtain ⟨reads, last⟩ := holds
  have eof : Item.Reads after ⟨.eof, ⟨0, 0⟩, line, .point (Piece.width source.toList)⟩
      (.endOfInput (1 + Piece.newlines source.toList) (Piece.width source.toList)) :=
    ⟨.eof, fun other => absurd rfl other, last, rfl⟩
  refine .reach (fits_ok small.offsets) (.pure ⟨?_, reads.errors⟩)
  rw [Array.toList_push]
  exact List.rel_append reads.items (.cons eof .nil)

end Lox.Flat
