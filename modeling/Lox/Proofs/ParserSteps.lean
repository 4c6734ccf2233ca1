import Lox.Parse.Statement
import Lox.Proofs.Sequencing

/-! What parsers see of the tokens, and what a single step does to it. Parsing depends only on the
kinds of the tokens that are left, of which the end of the input is the last and the only one. -/

namespace Lox

/-- Kinds that end in their only end of the input. -/
inductive Closed : List TokenKind → Prop where
  | last : Closed [.eof]
  | cons (other : kind ≠ .eof) (rest : Closed kinds) : Closed (kind :: kinds)

theorem Closed.ne_nil {kinds : List TokenKind} (closed : Closed kinds) : kinds ≠ [] := by
  cases closed <;> simp

theorem Closed.tail {kind : TokenKind} {kinds : List TokenKind} (closed : Closed (kind :: kinds))
    (other : kind ≠ .eof) : Closed kinds := by
  cases closed with
  | last => exact absurd rfl other
  | cons _ rest => exact rest

theorem Closed.eof_last {kinds : List TokenKind} (closed : Closed (.eof :: kinds)) : kinds = [] := by
  cases closed with
  | last => rfl
  | cons other => exact absurd rfl other

theorem closed_append_eof {front : List TokenKind} (inside : .eof ∉ front) :
    Closed (front ++ [.eof]) := by
  induction front with
  | nil => exact .last
  | cons kind front ih =>
    simp only [List.mem_cons, not_or] at inside
    exact .cons (Ne.symm inside.1) (ih inside.2)

theorem closed_append {front back : List TokenKind} (inside : .eof ∉ front) (closed : Closed back) :
    Closed (front ++ back) := by
  induction front with
  | nil => exact closed
  | cons kind front ih =>
    simp only [List.mem_cons, not_or] at inside
    exact .cons (Ne.symm inside.1) (ih inside.2)

namespace TokenKind

/-- Kinds that carry nothing, so that two of the same kind are equal. -/
inductive Fixed : TokenKind → Prop where
  | symbol : Fixed (.symbol sign)
  | keyword : Fixed (.keyword word)

theorem Fixed.ne_eof {kind : TokenKind} (fixed : kind.Fixed) : kind ≠ .eof := by
  rintro rfl
  cases fixed

private theorem symbol_index_lt (sign : Symbol) : sign.ctorIdx < 21 := by
  cases sign <;> decide

private theorem keyword_index_lt (word : Keyword) : word.ctorIdx < 18 := by
  cases word <;> decide

private theorem symbol_of_index {first second : Symbol} (same : first.ctorIdx = second.ctorIdx) :
    first = second := by
  rw [← Symbol.ofNat_ctorIdx first, same, Symbol.ofNat_ctorIdx]

private theorem keyword_of_index {first second : Keyword} (same : first.ctorIdx = second.ctorIdx) :
    first = second := by
  rw [← Keyword.ofNat_ctorIdx first, same, Keyword.ofNat_ctorIdx]

theorem Fixed.same_iff {first second : TokenKind} (fixed : second.Fixed) :
    first.same second = true ↔ first = second := by
  refine ⟨fun same => ?_, fun same => same ▸ beq_self_eq_true _⟩
  have same : first.index = second.index := eq_of_beq same
  cases fixed with
  | @symbol sign =>
    have low := symbol_index_lt sign
    cases first with
    | symbol other => rw [symbol_of_index same]
    | identifier | string | number | keyword | eof => simp only [index] at same; omega
  | @keyword word =>
    have low := keyword_index_lt word
    cases first with
    | symbol other =>
      have other := symbol_index_lt other
      simp only [index] at same
      omega
    | keyword other => rw [keyword_of_index (Nat.add_left_cancel same)]
    | identifier | string | number | eof => simp only [index] at same; omega

end TokenKind

namespace Cursor

def kinds (cursor : Cursor) : List TokenKind := cursor.current.kind :: cursor.ahead.map Token.kind

theorem atEnd_iff {cursor : Cursor} : cursor.atEnd = true ↔ cursor.current.kind = .eof := by
  cases same : cursor.current.kind <;> simp [atEnd, Token.isEof, same]

/-- The search for a boundary steps past no end of the source. -/
theorem ne_eof_of_inside {cursor : Cursor} (inside : ¬ (cursor.atEnd || cursor.atBoundary) = true) :
    cursor.current.kind ≠ .eof := by
  intro last
  simp [atEnd_iff.mpr last] at inside

theorem advance_kinds {cursor : Cursor} {kind : TokenKind} {rest : List TokenKind}
    (stands : cursor.kinds = kind :: rest) (other : kind ≠ .eof) (more : rest ≠ []) :
    cursor.advance.kinds = rest := by
  obtain ⟨previous, current, ahead⟩ := cursor
  obtain ⟨rfl, rfl⟩ := List.cons.inj stands
  have inside : ¬ atEnd ⟨previous, current, ahead⟩ = true := mt atEnd_iff.mp other
  rw [advance, if_neg inside]
  cases ahead with
  | nil => exact absurd rfl more
  | cons next ahead => rfl

theorem advance_closed {cursor : Cursor} (closed : Closed cursor.kinds) :
    Closed cursor.advance.kinds ∧ (cursor.current.kind = .eof ∨
      cursor.kinds = cursor.current.kind :: cursor.advance.kinds) := by
  by_cases last : cursor.current.kind = .eof
  · rw [advance, if_pos (atEnd_iff.mpr last)]
    exact ⟨closed, .inl last⟩
  · have rest := closed.tail last
    have moved : cursor.advance.kinds = cursor.ahead.map Token.kind :=
      advance_kinds rfl last rest.ne_nil
    rw [moved]
    exact ⟨rest, .inr rfl⟩

private theorem skip_closed (previous current : Token) (ahead : List Token)
    (closed : Closed (kinds ⟨previous, current, ahead⟩)) :
    Closed (skip previous current ahead).kinds ∧
      (skip previous current ahead).kinds.length ≤ (kinds ⟨previous, current, ahead⟩).length := by
  fun_induction skip previous current ahead with
  | case1 => exact ⟨closed, Nat.le_refl _⟩
  | case2 => exact ⟨closed, Nat.le_refl _⟩
  | case3 previous current next ahead cursor inside ih =>
    have moving : current.kind ≠ .eof := ne_eof_of_inside inside
    obtain ⟨closed, shorter⟩ := ih (closed.tail moving)
    exact ⟨closed, Nat.le_succ_of_le shorter⟩

/-- Taking up parsing again steps past a token, unless none is left. -/
theorem synchronize_closed {cursor : Cursor} (closed : Closed cursor.kinds) :
    Closed cursor.synchronize.kinds ∧
      cursor.synchronize.kinds.length ≤ max 1 (cursor.kinds.length - 1) := by
  obtain ⟨after, moved⟩ := advance_closed closed
  obtain ⟨closed', shorter⟩ : Closed cursor.synchronize.kinds ∧
      cursor.synchronize.kinds.length ≤ cursor.advance.kinds.length := skip_closed _ _ _ after
  refine ⟨closed', Nat.le_trans shorter ?_⟩
  rcases moved with last | moved
  · have nothing : cursor.ahead.map Token.kind = [] := by
      rw [kinds, last] at closed
      exact closed.eof_last
    rw [advance, if_pos (atEnd_iff.mpr last)]
    simp [kinds, List.map_eq_nil_iff.mp nothing]
  · have longer := congrArg List.length moved
    simp only [List.length_cons] at longer
    exact Nat.le_trans (by omega) (Nat.le_max_right _ _)

end Cursor

namespace Progress

def kinds (progress : Progress) : List TokenKind := progress.cursor.kinds

/-- All tokens that are left, the current one first. -/
def tokens (progress : Progress) : List Token :=
  progress.cursor.current :: progress.cursor.ahead

theorem kinds_eq (progress : Progress) : progress.kinds = progress.tokens.map Token.kind := rfl

/-- The kind of the token that parsing stands at. -/
def here (progress : Progress) : TokenKind := progress.cursor.current.kind

/-- How many tokens are left. -/
def left (progress : Progress) : Nat := progress.kinds.length

def advanced (progress : Progress) : Progress := ⟨progress.cursor.advance, progress.errors⟩

variable {progress : Progress} {kind : TokenKind} {rest : List TokenKind}

theorem here_of_kinds (stands : progress.kinds = kind :: rest) : progress.here = kind :=
  (List.cons.inj stands).1

theorem kinds_advanced (closed : Closed progress.kinds) (moving : progress.here ≠ .eof) :
    progress.kinds = progress.here :: progress.advanced.kinds ∧ Closed progress.advanced.kinds := by
  have rest := closed.tail moving
  have moved : progress.advanced.kinds = progress.cursor.ahead.map Token.kind :=
    Cursor.advance_kinds rfl moving rest.ne_nil
  rw [moved]
  exact ⟨rfl, rest⟩

theorem left_advanced (closed : Closed progress.kinds) (moving : progress.here ≠ .eof) :
    progress.advanced.left + 1 = progress.left := by
  rw [left, left, (kinds_advanced closed moving).1, List.length_cons]

end Progress

namespace Parser

variable {start : Progress} {kind : TokenKind} {message : String}

theorem eat_taken (fixed : kind.Fixed) (stands : start.here = kind) :
    eat kind start = .ok true start.advanced := by
  have found : start.cursor.check kind = true := fixed.same_iff.mpr stands
  simp only [eat, Cursor.eat, if_pos found, Progress.advanced]

theorem eat_other (fixed : kind.Fixed) (other : start.here ≠ kind) :
    eat kind start = .ok false start := by
  have found : ¬ start.cursor.check kind = true := mt fixed.same_iff.mp other
  simp only [eat, Cursor.eat, if_neg found]

theorem expect_taken (fixed : kind.Fixed) (stands : start.here = kind) :
    expect kind message start = .ok start.cursor.current start.advanced := by
  have found : start.cursor.check kind = true := fixed.same_iff.mpr stands
  simp only [expect, attempt, Cursor.expect, if_pos found, Progress.advanced]

theorem expect_other (fixed : kind.Fixed) (other : start.here ≠ kind) :
    expect kind message start =
      .error (.failed (start.cursor.errorHere .expectedToken message)) start := by
  have found : ¬ start.cursor.check kind = true := mt fixed.same_iff.mp other
  simp only [expect, attempt, Cursor.expect, if_neg found]

theorem expectName_taken {name : String} (stands : start.here = .identifier name) :
    expectName message start = .ok name start.advanced := by
  have stands : start.cursor.current.kind = .identifier name := stands
  simp only [expectName, attempt, Cursor.expectName, stands, Progress.advanced]

theorem expectName_other (other : ∀ name, start.here ≠ .identifier name) :
    expectName message start =
      .error (.failed (start.cursor.errorHere .expectedIdentifier message)) start := by
  have failed : start.cursor.expectName message =
      .error (start.cursor.errorHere .expectedIdentifier message) := by
    unfold Cursor.expectName
    split
    next name stands => exact absurd stands (other name)
    next => rfl
  simp only [expectName, attempt, failed]

/-- An `if` in front of the rest of a parser is an `if` that the rest follows. -/
theorem if_then_rest {α β : Type} (test : Parser Bool) (yes no : Parser α) (next : α → Parser β) :
    (test >>= fun holds => if holds then yes >>= next else no >>= next) =
      (test >>= fun holds => if holds then yes else no) >>= next := by
  rw [bind_assoc]
  congr 1
  funext holds
  cases holds <;> rfl

section
variable {fuel : Nat} {before : Array (Stmt Place)}

theorem program_ended (ended : start.here = .eof) :
    program (fuel + 1) before start = .ok before.toList start := by
  have looked : atEnd start = .ok start.cursor.atEnd start := rfl
  rw [program, Sequencing.bind_ok looked, if_pos (Cursor.atEnd_iff.mpr ended)]
  rfl

theorem program_inside (inside : start.here ≠ .eof) : program (fuel + 1) before start =
    (declaration fuel >>= fun found => program fuel (before ++ found.toArray)) start := by
  have looked : atEnd start = .ok start.cursor.atEnd start := rfl
  rw [program, Sequencing.bind_ok looked, if_neg (mt Cursor.atEnd_iff.mp inside)]
  refine congrArg (fun next => (declaration fuel >>= next) start) (funext fun found => ?_)
  cases found <;> simp

/-- A program comes to its end at once or behind a declaration. -/
theorem program_cases {value : Program} {stop : Progress}
    (ran : program (fuel + 1) before start = .ok value stop) :
    (start.here = .eof ∧ value = before.toList ∧ stop = start) ∨
      (start.here ≠ .eof ∧ ∃ found middle, declaration fuel start = .ok found middle ∧
        program fuel (before ++ found.toArray) middle = .ok value stop) := by
  by_cases ended : start.here = .eof
  · rw [program_ended ended] at ran
    cases ran
    exact .inl ⟨ended, rfl, rfl⟩
  · rw [program_inside ended] at ran
    cases declared : declaration fuel start with
    | error halt middle =>
      rw [Sequencing.bind_error declared] at ran
      cases ran
    | ok found middle =>
      rw [Sequencing.bind_ok declared] at ran
      exact .inr ⟨ended, found, middle, rfl, ran⟩

end

end Parser
end Lox
