import Mathlib.Order.Bounds.Defs
import Lox.Proofs.LaidOut

/-! Where parsing is taken up again behind an error. The token in error is skipped whatever it is,
and then everything up to the nearest boundary. -/

namespace Lox

namespace KindSet

variable {set : KindSet} {kind other : TokenKind}

theorem contains_insert :
    (set.insert kind).contains other = (set.contains other || kind.same other) := by
  have own : (1 <<< kind.index).testBit other.index = kind.same other := by
    rw [Nat.shiftLeft_eq, Nat.one_mul, Nat.testBit_two_pow, TokenKind.same, beq_eq_decide]
  rw [contains, insert, Nat.testBit_or, own, contains]

/-- A set contains what is of one kind with something it was made of. -/
theorem contains_ofList (kinds : List TokenKind) :
    (ofList kinds).contains other = kinds.any fun kind => kind.same other := by
  have grown (kinds : List TokenKind) : ∀ set : KindSet, (kinds.foldl insert set).contains other =
      (set.contains other || kinds.any fun kind => kind.same other) := by
    induction kinds with
    | nil => simp
    | cons kind kinds ih =>
      intro set
      rw [List.foldl_cons, ih, contains_insert, List.any_cons, Bool.or_assoc]
  have none : empty.contains other = false := Nat.zero_testBit _
  rw [ofList, grown, none, Bool.false_or]

end KindSet

/-- The words in front of which parsing may be taken up again. -/
def Keyword.resuming : List Keyword :=
  [.classWord, .funWord, .varWord, .forWord, .ifWord, .whileWord, .printWord, .returnWord]

theorem Cursor.declarationStart_contains {kind : TokenKind} :
    declarationStart.contains kind = true ↔ ∃ word ∈ Keyword.resuming, kind = .keyword word := by
  have swap (word : Keyword) : (TokenKind.keyword word).same kind = true ↔ kind = .keyword word := by
    rw [TokenKind.same, BEq.comm]
    exact TokenKind.Fixed.keyword.same_iff
  have listed : declarationStart = .ofList (Keyword.resuming.map .keyword) := rfl
  simp [listed, KindSet.contains_ofList, swap]

/-- An index of the tokens at which parsing may be taken up again: at the end of the input, behind a
semicolon, or in front of one of the words. -/
inductive Boundary (tokens : List Token) : Nat → Prop where
  | ending {index : Nat} {token : Token} (found : tokens[index]? = some token)
      (last : token.kind = .eof) : Boundary tokens index
  | behind {index : Nat} {token : Token} (found : tokens[index]? = some token)
      (ends : token.kind = .symbol .semicolon) : Boundary tokens (index + 1)
  | before {index : Nat} {token : Token} {word : Keyword} (found : tokens[index]? = some token)
      (resumes : word ∈ Keyword.resuming) (starts : token.kind = .keyword word) :
      Boundary tokens index

namespace Cursor

/-- The cursor in front of the token of an index: so many steps from the start. -/
def ofIndex (tokens : List Token) (index : Nat) : Cursor := advance^[index] (ofTokens tokens)

variable {tokens : List Token} {index : Nat} {cursor : Cursor}

namespace At

theorem unique {other : Cursor} (stands : cursor.At tokens index) (stands' : other.At tokens index) :
    cursor = other := by
  obtain ⟨previous, current, ahead⟩ := cursor
  obtain ⟨previous', current', ahead'⟩ := other
  obtain ⟨rfl, rfl⟩ := List.cons.inj (stands.ahead.symm.trans stands'.ahead)
  obtain rfl := Option.some.inj (stands.behind.symm.trans stands'.behind)
  rfl

/-- What the cursor tests is whether it stands at a boundary, but not in front of the first token,
which it takes for the token behind it. -/
theorem boundary_iff (stands : cursor.At tokens (index + 1)) :
    (cursor.atEnd || cursor.atBoundary) = true ↔ Boundary tokens (index + 1) := by
  have here := stands.here
  have behind : tokens[index]? = some cursor.previous := stands.behind
  rw [atBoundary, Bool.or_eq_true, Bool.or_eq_true, atEnd_iff, TokenKind.Fixed.symbol.same_iff,
    declarationStart_contains]
  constructor
  · rintro (last | ends | ⟨word, resumes, starts⟩)
    · exact .ending here last
    · exact .behind behind ends
    · exact .before here resumes starts
  · intro boundary
    cases boundary with
    | ending found last =>
      cases here.symm.trans found
      exact .inl last
    | behind found ends =>
      cases behind.symm.trans found
      exact .inr (.inl ends)
    | before found resumes starts =>
      cases here.symm.trans found
      exact .inr (.inr ⟨_, resumes, starts⟩)

end At

section Closed
variable (closed : Closed (tokens.map Token.kind))
include closed

theorem ofIndex_at (inside : index < tokens.length) : (ofIndex tokens index).At tokens index := by
  induction index with
  | zero => exact ofTokens_at (List.length_pos_iff.mp inside)
  | succ index ih =>
    have stands := ih (Nat.lt_of_succ_lt inside)
    have moving : (ofIndex tokens index).current.kind ≠ .eof := by
      intro last
      have final := stands.at_end closed last
      omega
    rw [ofIndex, Function.iterate_succ_apply']
    exact stands.step closed moving

/-- Steps go on to the nearest boundary. The induction is on the tokens ahead: an index that is no
boundary is not the nearest one, so the search may as well start behind it. -/
theorem skip_nearest (previous current : Token) (ahead : List Token) :
    ∀ index, At tokens (index + 1) ⟨previous, current, ahead⟩ → ∃ nearest,
      IsLeast {later | index < later ∧ Boundary tokens later} nearest ∧
        (skip previous current ahead).At tokens nearest := by
  fun_induction skip previous current ahead with
  | case1 previous current ahead cursor stops =>
    intro index stands
    have boundary := stands.boundary_iff.mp stops
    exact ⟨index + 1, ⟨⟨Nat.lt_succ_self _, boundary⟩, fun later further => further.1⟩, stands⟩
  | case2 previous current cursor goesOn =>
    intro index stands
    have one : Closed [current.kind] := stands.closed closed
    have last : cursor.current.kind = .eof := by
      by_contra moving
      exact (one.tail moving).ne_nil rfl
    exact absurd ((Bool.or_eq_true _ _).mpr (.inl (atEnd_iff.mpr last))) goesOn
  | case3 previous current next ahead cursor goesOn ih =>
    intro index stands
    obtain ⟨nearest, ⟨⟨further, boundary⟩, least⟩, stands'⟩ := ih (index + 1) stands.next
    have none : ¬ Boundary tokens (index + 1) := mt stands.boundary_iff.mpr goesOn
    refine ⟨nearest, ⟨⟨Nat.lt_of_succ_lt further, boundary⟩, ?_⟩, stands'⟩
    rintro later ⟨beyond, boundary'⟩
    refine least ⟨Nat.lt_of_le_of_ne beyond ?_, boundary'⟩
    rintro rfl
    exact none boundary'

/-- Behind an error parsing is taken up again at the nearest boundary behind the token in error, and
at the end of the input not at all. -/
theorem synchronize_stops_at_nearest (inside : index < tokens.length) :
    tokens[index]? = some (ofIndex tokens index).current ∧
    ((ofIndex tokens index).current.kind = .eof →
      (ofIndex tokens index).synchronize = ofIndex tokens index) ∧
    ((ofIndex tokens index).current.kind ≠ .eof → ∃ nearest,
      IsLeast {later | index < later ∧ Boundary tokens later} nearest ∧ nearest < tokens.length ∧
        (ofIndex tokens index).synchronize = ofIndex tokens nearest) := by
  have stands := ofIndex_at closed inside
  refine ⟨stands.here, fun last => ?_, fun moving => ?_⟩
  · have ended := atEnd_iff.mpr last
    rw [synchronize, advance, if_pos ended, skip.eq_def]
    exact if_pos ((Bool.or_eq_true _ _).mpr (.inl ended))
  · obtain ⟨nearest, least, stopped⟩ := skip_nearest closed _ _ _ index (stands.step closed moving)
    have stopped : (ofIndex tokens index).synchronize.At tokens nearest := stopped
    have bound : nearest < tokens.length := (List.getElem?_eq_some_iff.mp stopped.here).1
    exact ⟨nearest, least, bound, stopped.unique (ofIndex_at closed bound)⟩

end Closed

/-- A word in error is skipped, though a declaration could begin with it. -/
theorem synchronize_stops_at_nearest_word :
    let kinds : List TokenKind := [.symbol .plus, .keyword .varWord, .symbol .plus,
      .symbol .semicolon, .keyword .varWord, .eof]
    let tokens := kinds.map fun kind => Token.mk kind "" 1 (.point 0)
    Closed (tokens.map Token.kind) ∧ 1 < tokens.length ∧
      (ofIndex tokens 1).current.kind = .keyword .varWord ∧
      (∃ nearest, IsLeast {later | 1 < later ∧ Boundary tokens later} nearest ∧
        nearest < tokens.length ∧ (ofIndex tokens 1).synchronize = ofIndex tokens nearest) ∧
      (ofIndex tokens 1).synchronize.kinds = [.keyword .varWord, .eof] := by
  intro kinds tokens
  have inside : TokenKind.eof ∉ kinds.dropLast := by decide
  have closed : Closed (tokens.map Token.kind) := closed_append_eof inside
  have nearest := (@synchronize_stops_at_nearest tokens 1 closed (by decide)).2.2
  exact ⟨closed, by decide, rfl, nearest (by decide), by decide +kernel⟩

end Cursor
end Lox
